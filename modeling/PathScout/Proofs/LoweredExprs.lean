import PathScout.Proofs.DraftSteps
import PathScout.Proofs.UnevaluatedOperands

/-!
# Built expressions

Building an expression for its value leaves the value ready at the end of the current block; building
it as a condition ends the current block with ways to the two given blocks. Both leave everything
alone that was built before.

* `Draft.Yields`: what building a value does. `Lowered.Sound`: both ways of building are right.
* `sends_lowerLogical`, `sends_lowerConditional`: values that are joined behind a branch.
* `lower_sound`: both ways of building any expression.
-/

namespace PathScout

open Lower Lowered List

namespace Draft

/-- A value was built: it is ready, and the current block evaluates it. -/
structure Yields (d : Draft) (e : ExprId) (d' : Draft) : Prop where
  grows : Grows d.size d d'
  ready : d'.Ready d.size e
  latest : d'.Latest e

/-- A value was made of another one: it is ready, and only the other one was used. -/
structure Converts (n : Nat) (d : Draft) (e e' : ExprId) (d' : Draft) : Prop where
  grows : Grows n d d'
  ready : d'.Ready n e'
  latest : d.Latest e → d'.Latest e'
  fresh : e' = e ∨ d.size ≤ e'.index
  used : ∀ x, d'.Used x → d.Used x ∨ x = e

/-- The current block was ended. -/
structure Closes (n : Nat) (d d' : Draft) : Prop extends Extends n d d' where
  sound : d'.Sound
  closed : d'.state.current = none

/-- The block is set aside and was not begun. -/
structure Reserved (d : Draft) (b : BlockId) (V : Set ExprId) : Prop extends Parked d b V where
  entry : d.entry b = V

variable {d d' : Draft} {n : Nat} {b c : BlockId} {V : Set ExprId} {e e' : ExprId}

theorem Reserved.extends (h : d.Reserved b V) (hext : Extends n d d') : d'.Reserved b V :=
  ⟨h.toParked.extends hext, (hext.entry_eq b h.lt_room).trans h.entry⟩

theorem Reserved.goneTo (h : d.Reserved b V) (hne : c ≠ b) : (d.goneTo (some c)).Reserved b V :=
  ⟨h.toParked.goneTo hne, h.entry⟩

theorem reserved_opened (hd : d.Sound) (V : Set ExprId) : (d.opened V).Reserved ⟨d.room⟩ V :=
  ⟨parked_opened hd V, entry_opened_self⟩

/-- A block was opened and set aside. -/
structure Opens (d : Draft) (V : Set ExprId) (b : BlockId) (d' : Draft) : Prop where
  grows : ∀ n, Grows n d d'
  now_eq : d'.now = d.now
  reserved : d'.Reserved b V
  index_eq : b.index = d.room
  room_eq : d'.room = d.room + 1
  program_eq : d'.program = d.program

theorem opens_opened (hd : d.Sound) (V : Set ExprId) : Opens d V ⟨d.room⟩ (d.opened V) where
  grows n := ⟨extends_opened n d V, hd.opened V, (now_opened hd V).ge⟩
  now_eq := now_opened hd V
  reserved := reserved_opened hd V
  index_eq := rfl
  room_eq := Array.size_push ..
  program_eq := rfl

theorem BlockId.ne_of_index (h : b.index ≠ c.index) : b ≠ c := by
  rintro rfl
  exact h rfl

theorem Converts.refl (hd : d.Sound) (he : d.Ready n e) : Converts n d e e d :=
  ⟨.refl n hd, he, id, .inl rfl, fun _ h => .inl h⟩

theorem Converts.others (h : Converts n d e e' d') {y : ExprId} (hne : y ≠ e) (hy : d.Ready n y) :
    d'.Ready n y :=
  ⟨hy.le, h.grows.now hy.held, h.grows.evaluated hy.evaluated, fun hused =>
    (h.used y hused).elim hy.unused hne⟩

/-- A joined expression was added, which no block evaluates yet. -/
structure Joins (d : Draft) (a : TypedExpr) (join : ExprId) (d' : Draft) : Prop where
  grows : ∀ n, Grows n d d'
  now_eq : d'.now = d.now
  current_eq : d'.state.current = d.state.current
  room_eq : d'.room = d.room
  index_eq : join.index = d.size
  size_eq : d'.size = d.size + 1
  expr_eq : d'.expr join = a
  fresh : ¬ d'.Evaluated join
  unused : ¬ d'.Used join
  used : ∀ x, d'.Used x → d.Used x

theorem joins_withExpr (hd : d.Sound) (type : CType) (span : Span) :
    Joins d ⟨.join, type, span⟩ ⟨d.size⟩ (d.withExpr ⟨.join, type, span⟩) where
  grows n := ⟨(Extends.refl n d).withExpr (by simp [Operation.operands]),
    hd.withExpr (by simp [Operation.operands]) (by simp [Operation.operands]), subset_rfl⟩
  now_eq := rfl
  current_eq := rfl
  room_eq := rfl
  index_eq := rfl
  size_eq := size_withExpr
  expr_eq := expr_withExpr_self
  fresh h := (hd.lt_of_evaluated h).ne rfl
  unused h := by
    rcases used_withExpr h with ⟨e, he, hx⟩ | hx
    · exact (hd.older e he _ hx).not_ge he.le
    · cases hx
  used x h := by
    rcases used_withExpr h with h | hx
    · exact h
    · cases hx

theorem Joins.lt_size {a : TypedExpr} {join : ExprId} (h : Joins d a join d') :
    join.index < d'.size := by
  rw [h.index_eq, h.size_eq]
  exact Nat.lt_succ_self _

end Draft

namespace Lower

open Draft

variable {d : Draft} {n : Nat} {e : ExprId}

/-! ### Conversions -/

section

variable (hd : d.Sound) (hn : n ≤ d.size) (he : d.Ready n e)
include hd hn he

theorem sends_addConversion {op : Operation} {type : CType} {span : Span} (hop : op.operands = [e])
    (hjoin : op ≠ .join) (hadmits : d.Admits op type) :
    Sends d (addExpr op type span) fun e' d' => Converts n d e e' d' ∧
      d'.expr e' = ⟨op, type, span⟩ := by
  refine (sends_addExpr hd hn (fun x hx => ?_) hadmits hjoin).imp ?_
  · rw [hop, mem_singleton] at hx
    exact hx ▸ he
  · rintro e' d' ⟨hgrows, hready, hlatest, hle, hexpr, hused⟩
    refine ⟨⟨hgrows, hready, fun _ => hlatest, .inr hle, fun x hx => ?_⟩, hexpr⟩
    rw [← mem_singleton, ← hop]
    exact hused x hx

/-- The value of an expression that may be a place. -/
theorem sends_toValue :
    Sends d (toValue e) fun e' d' => Converts n d e e' d' ∧ (d'.expr e').op.isPlace = false := by
  refine .exprOf_bind ?_
  split
  · next hplace =>
    refine .pure ⟨.refl hd he, ?_⟩
    simpa using hplace
  · next hplace =>
    have hplace' : (d.expr e).op.isPlace = true := by simpa using hplace
    split
    · refine .imp (sends_addConversion hd hn he rfl (by simp) trivial) ?_
      rintro e' d' ⟨hconv, hexpr⟩
      exact ⟨hconv, by rw [hexpr]; rfl⟩
    · refine .imp (sends_addConversion hd hn he rfl (by simp) ⟨hplace', rfl⟩) ?_
      rintro e' d' ⟨hconv, hexpr⟩
      exact ⟨hconv, by rw [hexpr]; rfl⟩

/-- A value of another type. -/
theorem sends_convert (target : CType) :
    Sends d (convert e target) fun e' d' => Converts n d e e' d' ∧ (d'.expr e').type = target ∧
      ((d.expr e).op.isPlace = false → (d'.expr e').op.isPlace = false) ∧
      (e' = e ∨ ∃ x, (d'.expr e').op = .cast x) := by
  refine .exprOf_bind ?_
  split
  · next htype => exact .pure ⟨.refl hd he, htype, id, .inl rfl⟩
  · split
    · refine .imp (sends_addConversion hd hn he rfl (by simp) trivial) ?_
      rintro e' d' ⟨hconv, hexpr⟩
      exact ⟨hconv, by rw [hexpr], fun _ => by rw [hexpr]; rfl, .inr ⟨e, by rw [hexpr]⟩⟩
    · exact sends_fail _ _

/-- An integer as an `int`. -/
theorem sends_requireInteger :
    Sends d (requireInteger e) fun e' d' => Converts n d e e' d' ∧ (d'.expr e').type = .int ∧
      ((d.expr e).op.isPlace = false → (d'.expr e').op.isPlace = false) := by
  refine .exprOf_bind ?_
  split
  · exact (sends_convert hd hn he .int).imp fun e' d' ⟨hconv, htype, hplace, _⟩ =>
      ⟨hconv, htype, hplace⟩
  · exact sends_fail _ _

end

theorem sends_requireScalar (e : ExprId) : Sends d (requireScalar e) fun _ d' => d' = d := by
  refine .exprOf_bind ?_
  split
  · exact .pure rfl
  · exact sends_fail _ _

end Lower

/-! ### Both ways of building -/

namespace Lowered

open Draft

/-- Building the expression is right, for its value and as a condition. -/
structure Sound (x : Lowered) : Prop where
  place : ∀ d : Draft, d.Sound → Sends d x.place fun e d' => d.Yields e d'
  branch : ∀ (d : Draft) (yes no : BlockId) (kind : BranchKind), d.Sound → yes.index < d.room →
    no.index < d.room → d.entry yes ⊆ d.now → d.entry no ⊆ d.now →
    Sends d (x.branch yes no kind) fun _ d' => Closes d.size d d'

variable {x : Lowered} {d : Draft}

theorem Sound.value (hx : x.Sound) (hd : d.Sound) :
    Sends d x.value fun e d' => d.Yields e d' ∧ (d'.expr e).op.isPlace = false := by
  refine (hx.place d hd).bind fun e d1 h => ?_
  refine (sends_toValue h.grows.sound h.grows.size_le h.ready).imp ?_
  rintro e' d' ⟨hconv, hplace⟩
  exact ⟨⟨h.grows.trans hconv.grows, hconv.ready, hconv.latest h.latest⟩, hplace⟩

theorem Sound.target (hx : x.Sound) (hd : d.Sound) (l : Location) :
    Sends d (x.target l) fun e d' => d.Yields e d' ∧ (d'.expr e).op.isPlace = true := by
  refine (hx.place d hd).bind fun e d1 h => ?_
  refine .exprOf_bind ?_
  split
  · next hplace => exact .pure ⟨h, hplace⟩
  · exact sends_fail _ _

theorem sound_ofPlace {place : Lower ExprId} (l : Location)
    (h : ∀ d : Draft, d.Sound → Sends d place fun e d' => d.Yields e d') :
    (ofPlace l place).Sound where
  place := h
  branch d yes no kind hd hyes hno hyes' hno' := by
    refine (h d hd).bind fun e d1 h1 => ?_
    refine (sends_toValue h1.grows.sound h1.grows.size_le h1.ready).bind ?_
    rintro cond d2 ⟨hconv, hplace⟩
    have hgrows := h1.grows.trans hconv.grows
    refine (sends_requireScalar cond).bind ?_
    rintro _ _ rfl
    refine (sends_terminate hgrows.sound (fun x hx => ?_) (fun s hs => ?_) (by simp)).imp ?_
    · cases mem_singleton.1 hx
      exact ⟨hconv.ready.held, hplace, hconv.latest h1.latest⟩
    · have hs' : s = yes ∨ s = no := by simpa [Terminator.successors] using hs
      rcases hs' with rfl | rfl
      · rw [hgrows.entry_eq s hyes]
        exact ⟨hyes.trans_le hgrows.room_le, hyes'.trans hgrows.now⟩
      · rw [hgrows.entry_eq s hno]
        exact ⟨hno.trans_le hgrows.room_le, hno'.trans hgrows.now⟩
    · rintro _ d3 ⟨hd3, hnone, hext⟩
      exact ⟨hext _ _ hgrows.toExtends, hd3, hnone⟩

end Lowered

namespace Lower

variable {op : Operation} {type : CType} {span : Span} {β : Type} {yes no next b : BlockId}
  {join v : ExprId} {operand base : Lowered}

open Draft

variable {d d₀ : Draft} {l r : ExprId} {left right : Lowered}

/-! ### Operators -/

/-- An expression over values that are ready is built on top of what was built before. -/
theorem sends_addOver (hg : Grows d₀.size d₀ d) (hops : ∀ x ∈ op.operands, d.Ready d₀.size x)
    (hadmits : d.Admits op type) (hjoin : op ≠ .join) :
    Sends d (addExpr op type span) fun e d' => d₀.Yields e d' ∧ d'.expr e = ⟨op, type, span⟩ := by
  refine .imp (sends_addExpr hg.sound hg.size_le hops hadmits hjoin) ?_
  rintro e d' ⟨hgrows, hready, hlatest, -, hexpr, -⟩
  exact ⟨⟨hg.trans hgrows, hready, hlatest⟩, hexpr⟩

theorem sends_addBinary {op : BinaryOp} (hg : Grows d₀.size d₀ d) (hl : d.Ready d₀.size l)
    (hr : d.Ready d₀.size r) (hlp : (d.expr l).op.isPlace = false) (hrp : (d.expr r).op.isPlace = false)
    (htype : (d.expr l).type = .int → (d.expr r).type = .int → type = .int) :
    Sends d (addExpr (.binary op l r) type span) fun e d' => d₀.Yields e d' := by
  refine .imp (sends_addOver hg (fun x hx => ?_) ⟨hlp, hrp, htype⟩ (by simp)) fun e d' h => h.1
  have hx' : x = l ∨ x = r := by simpa [Operation.operands] using hx
  rcases hx' with rfl | rfl
  · exact hl
  · exact hr

/-- Two values, built one after the other, are ready. -/
theorem sends_two {f : ExprId → ExprId → Lower β} {Q : β → Draft → Prop} (hleft : left.Sound)
    (hright : right.Sound) (hd : d.Sound)
    (hf : ∀ l r d', Grows d.size d d' → d'.Ready d.size l → d'.Ready d.size r → l ≠ r →
      (d'.expr l).op.isPlace = false → (d'.expr r).op.isPlace = false → Sends d' (f l r) Q) :
    Sends d (do let l ← left.value; let r ← right.value; f l r) Q := by
  refine .bind (hleft.value hd) ?_
  rintro l d1 ⟨h1, hlp⟩
  refine .bind (hright.value h1.grows.sound) ?_
  rintro r d2 ⟨h2, hrp⟩
  have hlt : l.index < d1.size := h1.ready.lt_size h1.grows.sound
  refine hf l r d2 (h1.grows.trans (h2.grows.mono h1.grows.size_le))
    (h1.ready.grows h1.grows.sound h2.grows) (h2.ready.mono h1.grows.size_le) ?_ ?_ hrp
  · rintro rfl
    exact hlt.not_ge h2.ready.le
  · rw [h2.grows.expr_eq l hlt]
    exact hlp

/-- One of two ready values is converted. -/
theorem sends_convertOne {f : ExprId → Lower β} {Q : β → Draft → Prop} (hg : Grows d₀.size d₀ d)
    (hl : d.Ready d₀.size l) (hr : d.Ready d₀.size r) (hne : r ≠ l) (hlp : (d.expr l).op.isPlace = false)
    (target : CType)
    (hf : ∀ l' d', Grows d₀.size d₀ d' → d'.Ready d₀.size l' → d'.Ready d₀.size r → r ≠ l' →
      (d'.expr l').op.isPlace = false → d'.expr r = d.expr r → Sends d' (f l') Q) :
    Sends d (convert l target >>= f) Q := by
  refine .bind (sends_convert hg.sound hg.size_le hl target) ?_
  rintro l' d' ⟨hconv, -, hplace, -⟩
  have hrlt := hr.lt_size hg.sound
  refine hf l' d' (hg.trans hconv.grows) hconv.ready (hconv.others hne hr) ?_ (hplace hlp)
    (hconv.grows.expr_eq r hrlt)
  rintro rfl
  rcases hconv.fresh with heq | hle
  · exact hne heq
  · exact hrlt.not_ge hle

theorem sends_lowerBinary (span : Span) (op : BinaryOp) (hleft : left.Sound) (hright : right.Sound)
    (hd : d.Sound) : Sends d (lowerBinary span op left right) fun e d' => d.Yields e d' := by
  refine sends_two hleft hright hd fun l r d2 hg hl hr hne hlp hrp => ?_
  refine .typeOf_bind (.typeOf_bind ?_)
  have hnotInt : ∀ t : CType, t.isPointer = true → t ≠ .int := by
    rintro t ht rfl
    cases ht
  split
  · refine sends_convertOne hg hl hr hne.symm hlp .int fun l' d3 hg3 hl3 hr3 hne3 hlp3 hr_eq => ?_
    rw [← hr_eq] at hrp
    refine sends_convertOne hg3 hr3 hl3 hne3.symm hrp .int fun r' d4 hg4 hr4 hl4 _ hrp4 hl_eq => ?_
    exact sends_addBinary hg4 hl4 hr4 (by rwa [hl_eq]) hrp4 fun _ _ => rfl
  · split
    · -- comparisons give an integer
      split
      · exact sends_addBinary hg hl hr hlp hrp fun _ _ => rfl
      · split
        · refine sends_convertOne hg hr hl hne hrp _ fun r' d3 hg3 hr3 hl3 _ hrp3 hl_eq => ?_
          exact sends_addBinary hg3 hl3 hr3 (by rwa [hl_eq]) hrp3 fun _ _ => rfl
        · split
          · refine sends_convertOne hg hl hr hne.symm hlp _ fun l' d3 hg3 hl3 hr3 _ hlp3 hr_eq => ?_
            exact sends_addBinary hg3 hl3 hr3 hlp3 (by rwa [hr_eq]) fun _ _ => rfl
          · exact sends_fail _ _
    · -- a moved pointer stays a pointer
      split
      · next hop =>
        simp only [Bool.and_eq_true] at hop
        refine sends_convertOne hg hr hl hne hrp .int fun r' d3 hg3 hr3 hl3 _ hrp3 hl_eq => ?_
        refine sends_addBinary hg3 hl3 hr3 (by rwa [hl_eq]) hrp3 fun hint _ => ?_
        rw [hl_eq] at hint
        exact absurd hint (hnotInt _ hop.1.2)
      · split
        · next hop =>
          simp only [Bool.and_eq_true] at hop
          refine sends_convertOne hg hl hr hne.symm hlp .int fun l' d3 hg3 hl3 hr3 _ hlp3 hr_eq => ?_
          refine sends_addBinary hg3 hl3 hr3 hlp3 (by rwa [hr_eq]) fun _ hint => ?_
          rw [hr_eq] at hint
          exact absurd hint (hnotInt _ hop.2)
        · split
          · exact sends_addBinary hg hl hr hlp hrp fun _ _ => rfl
          · exact sends_fail _ _

/-! ### Branches -/

theorem sends_openBlock (hd : d.Sound) (V : Set ExprId) :
    Sends d newBlock fun b d' => Opens d V b d' := by
  refine .imp (sends_newBlock V) ?_
  rintro b d' ⟨rfl, rfl⟩
  exact opens_opened hd V

/-- The right operand of a conjunction or disjunction: it is entered with all that was at hand
before the left one. -/
theorem sends_secondWay {d2 : Draft} (hright : right.Sound) {second : BlockId} (kind : BranchKind)
    (hext : Extends d₀.size d₀ d) (h2 : Closes d.size d d2) (hsecond : d.Reserved second d.now)
    (hnew : d₀.room ≤ second.index) (hyes : yes.index < d.room) (hno : no.index < d.room)
    (hyes' : d.entry yes ⊆ d.now) (hno' : d.entry no ⊆ d.now) :
    Sends d2 (do setCurrent (some second); right.branch yes no kind) fun _ d' =>
      Closes d₀.size d₀ d' ∧ ∀ c W, d.Reserved c W → second ≠ c → d'.Reserved c W := by
  have hsecond2 : d2.Reserved second d.now := hsecond.extends h2.toExtends
  refine .bind (sends_setCurrent (some second)) ?_
  rintro _ d3 rfl
  have hnow : (d2.goneTo (some second)).now = d.now := now_goneTo hsecond2.toParked
  have hsound := h2.sound.goneTo hsecond2.toParked
  have hext3 : Extends d₀.size d₀ (d2.goneTo (some second)) :=
    (hext.trans (h2.toExtends.mono hext.size_le)).goneTo (.inr (.inl hnew))
  have hroom : d.room ≤ (d2.goneTo (some second)).room := h2.room_le
  refine .imp (hright.branch _ yes no kind hsound (hyes.trans_le hroom)
    (hno.trans_le hroom) ?_ ?_) fun _ d4 h4 =>
      ⟨⟨hext3.trans (h4.toExtends.mono hext3.size_le), h4.sound, h4.closed⟩, fun c W hc hne =>
        ((hc.extends h2.toExtends).goneTo hne).extends h4.toExtends⟩
  · rw [hnow]
    exact (h2.entry_eq yes hyes).trans_subset hyes'
  · rw [hnow]
    exact (h2.entry_eq no hno).trans_subset hno'

/-- A conjunction or disjunction as a condition. -/
theorem sends_branchLogical (op : LogicalOp) (hleft : left.Sound) (hright : right.Sound)
    (kind : BranchKind) (hd : d.Sound) (hyes : yes.index < d.room) (hno : no.index < d.room)
    (hyes' : d.entry yes ⊆ d.now) (hno' : d.entry no ⊆ d.now) :
    Sends d (branchLogical op left right yes no kind) fun _ d' => Closes d.size d d' := by
  refine .bind (sends_openBlock hd d.now) fun second d1 h1 => ?_
  have hg1 : Grows d.size d d1 := h1.grows d.size
  have hsecond : d1.Reserved second d1.now := h1.now_eq ▸ h1.reserved
  have hlt := hsecond.lt_room
  have hyes1 := hyes.trans_le hg1.room_le
  have hno1 := hno.trans_le hg1.room_le
  have hyesEntry : d1.entry yes ⊆ d1.now := by rwa [hg1.entry_eq yes hyes, h1.now_eq]
  have hnoEntry : d1.entry no ⊆ d1.now := by rwa [hg1.entry_eq no hno, h1.now_eq]
  have hrest : ∀ d2, Closes d1.size d1 d2 → Sends d2 (do
      setCurrent (some second)
      right.branch yes no kind) fun _ d' => Closes d.size d d' := fun d2 h2 =>
    Sends.imp (sends_secondWay hright kind hg1.toExtends h2 hsecond h1.index_eq.ge hyes1 hno1
      hyesEntry hnoEntry) fun _ _ h => h.1
  cases op with
  | and =>
    exact .bind (hleft.branch d1 second no _ hg1.sound hlt hno1 hsecond.entry.le hnoEntry)
      fun _ d2 => hrest d2
  | or =>
    exact .bind (hleft.branch d1 yes second _ hg1.sound hyes1 hlt hyesEntry hsecond.entry.le)
      fun _ d2 => hrest d2

/-! ### Joined values -/

/-- One way of a joined expression: the expression is set, and the way leads on. -/
theorem sends_mergeInto {value : MergeValue} (hd : d.Sound) (htyped : d.StepTyped (.merge join value))
    (hops : ∀ x ∈ Element.operands d.program (.merge join value), x ∈ d.now ∧ d.Evaluated x)
    (hnext : next.index < d.room) (hentry : d.entry next ⊆ insert join d.now) :
    Sends d (mergeInto join value next) fun _ d' => d'.Sound ∧ d'.state.current = none ∧
      ∀ n d₀, Extends n d₀ d → Extends n d₀ d' := by
  refine .bind (sends_pushElement hd (fun x hx => (hops x hx).1)
    (fun x hx => .inl (hops x hx).2) htyped (by simp)) ?_
  rintro _ d1 ⟨hd1, hnow, -, hbelow, -, hext⟩
  refine .imp (sends_jump .fallthrough hd1 (hnext.trans_le hbelow.room_le) ?_) ?_
  · rw [hbelow.entry_eq next hnext, hnow, keep_merge]
    exact hentry
  · rintro _ d2 ⟨hd2, hnone, hext2⟩
    exact ⟨hd2, hnone, fun n d₀ h => hext2 n d₀ (hext n d₀ h (by simp))⟩

theorem sends_addJoin (hd : d.Sound) (type : CType) (span : Span) :
    Sends d (addDetached .join type span) fun join d' => Joins d ⟨.join, type, span⟩ join d' := by
  refine .imp (sends_addDetached .join type span) ?_
  rintro join d' ⟨rfl, rfl⟩
  exact joins_withExpr hd type span

/-- The ways of a joined expression meet: its value is ready. -/
theorem sends_finishJoin (hd : d.Sound) (hext : Extends d₀.size d₀ d) (hle : d₀.size ≤ join.index)
    (hlt : join.index < d.size) (hop : (d.expr join).op = .join) (hsub : d₀.now ⊆ d.now)
    (hheld : join ∈ d.now) (hfresh : ¬ d.Evaluated join) (hunused : ¬ d.Used join)
    (htyped : d.JoinTyped join) :
    Sends d (do pushElement (.expr join false); return join) fun e d' => d₀.Yields e d' := by
  have hops : Element.operands d.program (.expr join false) = [join] := by
    rw [Element.operands]
    exact if_pos hop
  refine .bind (sends_pushElement hd ?_ ?_ ⟨hlt, by rw [hop]; trivial, fun _ => htyped⟩ ?_) ?_
  · rw [hops]
    intro x hx
    rwa [mem_singleton.1 hx]
  · rw [hops]
    intro x hx
    exact .inr ⟨false, by rw [mem_singleton.1 hx]⟩
  · intro e r heq
    cases heq
    exact hfresh
  · rintro _ d' ⟨hd', hnow, hprogram, hbelow, hlatest, hext'⟩
    have hnow' : d'.now = insert join d.now := hnow.trans (keep_expr _ _)
    have hgrow : Extends d₀.size d₀ d' := hext' _ _ hext fun e r heq => by
      cases heq
      exact hle
    refine .pure ⟨⟨hgrow, hd', ?_⟩, ⟨hle, ?_, (hlatest _ _ rfl).evaluated, ?_⟩, hlatest _ _ rfl⟩
    · rw [hnow']
      exact hsub.trans (Set.subset_insert _ _)
    · rw [hnow']
      exact Set.mem_insert _ _
    · rintro ⟨e, he, hx⟩
      refine hunused ⟨e, ?_, ?_⟩
      · rwa [size, hprogram] at he
      · rwa [expr, hprogram] at hx

/-- One way of a conjunction or disjunction: its value is one or zero. -/
theorem sends_constantWay {d1 : Draft} {V : Set ExprId} {k : Int} (hext : Extends d₀.size d₀ d1)
    (hd : d1.Sound) (hlt : join.index < d₀.size) (hop : (d₀.expr join).op = .join)
    (htype : (d₀.expr join).type = .int) (hb : d1.Reserved b V)
    (hnext : d1.Reserved next (insert join V)) (hnew : d₀.room ≤ b.index) :
    Sends d1 (do setCurrent (some b); mergeInto join (.int k) next) fun _ d' =>
      Closes d₀.size d₀ d' ∧ ∀ c W, d1.Reserved c W → b ≠ c → d'.Reserved c W := by
  refine .bind (sends_setCurrent (some b)) ?_
  rintro _ d2 rfl
  have hext2 : Extends d₀.size d₀ (d1.goneTo (some b)) := hext.goneTo (.inr (.inl hnew))
  have hexpr : (d1.goneTo (some b)).expr join = d₀.expr join := hext2.expr_eq join hlt
  have hnow : (d1.goneTo (some b)).now = V := now_goneTo hb.toParked
  refine .imp (sends_mergeInto (hd.goneTo hb.toParked)
    ⟨hlt.trans_le hext2.size_le, by rw [hexpr, hop], by rw [hexpr, htype]⟩ (by simp [Element.operands])
    hnext.lt_room ?_) ?_
  · rw [hnow]
    exact hnext.entry.le
  · rintro _ d3 ⟨hd3, hnone, hext3⟩
    exact ⟨⟨hext3 _ _ hext2, hd3, hnone⟩, fun c W hc hne =>
      (hc.goneTo hne).extends (hext3 0 _ (.refl 0 _))⟩

/-- A conjunction or disjunction as a value. -/
theorem sends_lowerLogical (span : Span) (op : LogicalOp) (hleft : left.Sound)
    (hright : right.Sound) (hd : d.Sound) :
    Sends d (lowerLogical span op left right) fun e d' => d.Yields e d' := by
  refine .bind (sends_addJoin hd .int span) fun join d1 h1 => ?_
  have hlt := h1.lt_size
  -- the four blocks, each with what is at hand at its start
  refine .bind (sends_openBlock (h1.grows 0).sound d.now) fun second d2 h2 => ?_
  refine .bind (sends_openBlock (h2.grows 0).sound d.now) fun yes d3 h3 => ?_
  refine .bind (sends_openBlock (h3.grows 0).sound d.now) fun no d4 h4 => ?_
  refine .bind (sends_openBlock (h4.grows 0).sound (insert join d.now)) fun next d5 h5 => ?_
  have hsecond : d5.Reserved second d.now := ((h2.reserved.extends (h3.grows 0).toExtends).extends
    (h4.grows 0).toExtends).extends (h5.grows 0).toExtends
  have hyes : d5.Reserved yes d.now :=
    (h3.reserved.extends (h4.grows 0).toExtends).extends (h5.grows 0).toExtends
  have hno : d5.Reserved no d.now := h4.reserved.extends (h5.grows 0).toExtends
  have hi2 := h2.index_eq
  have hi3 := h3.index_eq
  have hi4 := h4.index_eq
  have hi5 := h5.index_eq
  have hr2 := h2.room_eq
  have hr3 := h3.room_eq
  have hr4 := h4.room_eq
  have hg5 : Grows d1.size d1 d5 :=
    (((h2.grows _).trans (h3.grows _)).trans (h4.grows _)).trans (h5.grows _)
  have hnow5 : d5.now = d.now := by rw [h5.now_eq, h4.now_eq, h3.now_eq, h2.now_eq, h1.now_eq]
  have hsub : ∀ {b : BlockId}, d5.Reserved b d.now → d5.entry b ⊆ d5.now := fun hb => by
    rw [hb.entry, hnow5]
  have hrest : ∀ d6, Closes d5.size d5 d6 → Sends d6
      (joinSecond right join second yes no next) fun e d' => d.Yields e d' := by
    intro d6 h6
    unfold joinSecond
    refine .bind_assoc (sends_secondWay hright .operand hg5.toExtends h6 (hnow5 ▸ hsecond)
      hi2.ge hyes.lt_room hno.lt_room (hsub hyes) (hsub hno)) ?_
    rintro _ d7 ⟨h7, hres7⟩
    have hyes7 := hres7 yes _ hyes (BlockId.ne_of_index (by omega))
    have hno7 := hres7 no _ hno (BlockId.ne_of_index (by omega))
    have hnext7 := hres7 next _ h5.reserved (BlockId.ne_of_index (by omega))
    refine .bind_assoc (sends_constantWay h7.toExtends h7.sound hlt (by rw [h1.expr_eq])
      (by rw [h1.expr_eq]) hyes7 hnext7 (by omega)) ?_
    rintro _ d8 ⟨h8, hres8⟩
    have hno8 := hres8 no _ hno7 (BlockId.ne_of_index (by omega))
    have hnext8 := hres8 next _ hnext7 (BlockId.ne_of_index (by omega))
    refine .bind_assoc (sends_constantWay h8.toExtends h8.sound hlt (by rw [h1.expr_eq])
      (by rw [h1.expr_eq]) hno8 hnext8 (by omega)) ?_
    rintro _ d9 ⟨h9, hres9⟩
    have hnext9 := hres9 next _ hnext8 (BlockId.ne_of_index (by omega))
    refine .bind (sends_setCurrent (some next)) ?_
    rintro _ d10 rfl
    have hnow : (d9.goneTo (some next)).now = insert join d.now := now_goneTo hnext9.toParked
    have hext : Extends d1.size d1 (d9.goneTo (some next)) :=
      h9.toExtends.goneTo (.inr (.inl (by omega)))
    have hexpr : (d9.goneTo (some next)).expr join = ⟨.join, .int, span⟩ :=
      (hext.expr_eq _ hlt).trans h1.expr_eq
    refine sends_finishJoin (h9.sound.goneTo hnext9.toParked)
      ((h1.grows d.size).toExtends.trans (hext.mono (h1.grows 0).size_le)) h1.index_eq.ge
      (hlt.trans_le hext.size_le) (by rw [hexpr]) ?_ ?_ ?_ (fun h => h1.unused (hext.used hlt h))
      (.inl (by rw [hexpr]))
    · rw [hnow]
      exact Set.subset_insert _ _
    · rw [hnow]
      exact Set.mem_insert _ _
    · intro h
      rcases hext.evaluated_new _ h with h | h
      · exact h1.fresh h
      · exact hlt.not_ge h
  cases op with
  | and =>
    exact .bind (hleft.branch d5 second no _ hg5.sound hsecond.lt_room hno.lt_room
      (hsub hsecond) (hsub hno)) fun _ d6 => hrest d6
  | or =>
    exact .bind (hleft.branch d5 yes second _ hg5.sound hyes.lt_room hsecond.lt_room
      (hsub hyes) (hsub hsecond)) fun _ d6 => hrest d6

/-- What one way of a conditional expression leaves: the way is over, and nothing but its value was
used. -/
structure MergeWay (n : Nat) (d₀ d : Draft) (b : BlockId) (v : ExprId) (type : CType) (d' : Draft) :
    Prop extends Below d d' where
  closes : Closes n d₀ d'
  parked : ∀ c W, d.Parked c W → b ≠ c → d'.Parked c W
  current : ∀ c, d.state.current = some c → b ≠ c → d'.Parked c d.now
  reserved : ∀ c W, d.Reserved c W → b ≠ c → d'.Reserved c W
  fresh : ∀ x, x.index < d.size → d'.Evaluated x → d.Evaluated x
  used : ∀ x, d'.Used x → d.Used x ∨ x = v
  value : ∃ c, d'.Evaluated c ∧ (d'.expr c).type = type ∧ (c = v ∨ ∃ x, (d'.expr c).op = .cast x)

/-- One way of a conditional expression, whose value was built before. -/
theorem sends_mergeWay {f : Unit → Lower β} {Q : β → Draft → Prop} {n : Nat} {W U : Set ExprId}
    (hext : Extends n d₀ d) (hd : d.Sound) (hn : n ≤ d.size) (hb : d.Parked b W)
    (hbase : d₀.state.current = some b ∨ d₀.room ≤ b.index ∨ d₀.Pending b) (hle : n ≤ v.index)
    (hv : v ∈ W) (hev : d.Evaluated v) (hunused : ¬ d.Used v) (hplace : (d.expr v).op.isPlace = false)
    (hlt : join.index < d.size) (hop : (d.expr join).op = .join) (htype : (d.expr join).type = type)
    (hnext : d.Reserved next U) (hsub : U ⊆ insert join W)
    (hf : ∀ d', MergeWay n d₀ d b v type d' → Sends d' (f ()) Q) :
    Sends d (setCurrent (some b) >>= fun _ => convert v type >>= fun c =>
      mergeInto join (.expr c) next >>= f) Q := by
  refine .bind (sends_setCurrent (some b)) ?_
  rintro _ d1 rfl
  have hnow1 : (d.goneTo (some b)).now = W := now_goneTo hb
  have hready : (d.goneTo (some b)).Ready n v := ⟨hle, hnow1 ▸ hv, hev, hunused⟩
  refine .bind (sends_convert (hd.goneTo hb) hn hready type) ?_
  rintro c d2 ⟨hconv, hctype, hcplace, hcor⟩
  have hexpr : d2.expr join = d.expr join := hconv.grows.expr_eq join hlt
  refine .bind (sends_mergeInto hconv.grows.sound
    ⟨hlt.trans_le hconv.grows.size_le, by rw [hexpr, hop], hcplace hplace, by rw [hctype, hexpr, htype]⟩
    (fun x hx => ?_) (hnext.lt_room.trans_le hconv.grows.room_le) ?_) ?_
  · cases mem_singleton.1 hx
    exact ⟨hconv.ready.held, hconv.ready.evaluated⟩
  · have hentry : d2.entry next = U := (hconv.grows.entry_eq next hnext.lt_room).trans hnext.entry
    rw [hentry]
    exact hsub.trans (Set.insert_subset_insert (hnow1 ▸ hconv.grows.now))
  · rintro _ d3 ⟨hd3, hnone, hext3⟩
    -- the two steps after the way was taken up again
    have hstep : Extends n (d.goneTo (some b)) d3 := hext3 _ _ hconv.grows.toExtends
    have hlast : Extends 0 d2 d3 := hext3 _ _ (.refl _ _)
    refine hf d3
      { toBelow := (below_goneTo d (some b)).trans hstep.toBelow
        closes := ⟨hext3 _ _ ((hext.goneTo hbase).trans hconv.grows.toExtends), hd3, hnone⟩
        parked := fun c' W' hc' hne => (hc'.goneTo hne).extends hstep
        current := fun c' hc' hne => (hd.parked_of_current hc' hne).extends hstep
        reserved := fun c' W' hc' hne => (hc'.goneTo hne).extends hstep
        fresh := ?_, used := ?_, value := ⟨c, hlast.evaluated hconv.ready.evaluated, ?_, ?_⟩ }
    · intro x hx h
      rcases hstep.evaluated_new x h with h | h
      · exact h
      · exact absurd h hx.not_ge
    · intro x h
      exact hconv.used x ((hext3 (x.index + 1) d2 (.refl _ _)).used (Nat.lt_succ_self _) h)
    · rw [hlast.expr_eq c (hconv.ready.lt_size hconv.grows.sound)]
      exact hctype
    · rw [hlast.expr_eq c (hconv.ready.lt_size hconv.grows.sound)]
      exact hcor

/-- A conditional expression. -/
theorem sends_lowerConditional {cond yes no : Lowered} (span : Span) (hcond : cond.Sound)
    (hyes : yes.Sound) (hno : no.Sound) (hd : d.Sound) :
    Sends d (lowerConditional span cond yes no) fun e d' => d.Yields e d' := by
  -- the block behind the two ways needs the number of the joined expression, which is given later
  refine .foretold fun expected => ?_
  refine .bind (sends_openBlock hd d.now) fun yesBlock d1 h1 => ?_
  refine .bind (sends_openBlock (h1.grows 0).sound d.now) fun noBlock d2 h2 => ?_
  refine .bind (sends_openBlock (h2.grows 0).sound (insert expected d.now)) fun next d3 h3 => ?_
  have hyesBlock : d3.Reserved yesBlock d.now :=
    (h1.reserved.extends (h2.grows 0).toExtends).extends (h3.grows 0).toExtends
  have hnoBlock : d3.Reserved noBlock d.now := h2.reserved.extends (h3.grows 0).toExtends
  have hi1 := h1.index_eq
  have hi2 := h2.index_eq
  have hi3 := h3.index_eq
  have hr1 := h1.room_eq
  have hr2 := h2.room_eq
  have hg3 : Grows d.size d d3 := ((h1.grows _).trans (h2.grows _)).trans (h3.grows _)
  have hnow3 : d3.now = d.now := by rw [h3.now_eq, h2.now_eq, h1.now_eq]
  refine .bind (hcond.branch d3 yesBlock noBlock _ hg3.sound hyesBlock.lt_room
    hnoBlock.lt_room (by rw [hyesBlock.entry, hnow3]) (by rw [hnoBlock.entry, hnow3])) fun _ d4 h4 => ?_
  have hyesBlock4 := hyesBlock.extends h4.toExtends
  refine .bind (sends_setCurrent (some yesBlock)) ?_
  rintro _ d5 rfl
  have hext5 : Extends d.size d (d4.goneTo (some yesBlock)) :=
    (hg3.toExtends.trans (h4.toExtends.mono hg3.size_le)).goneTo (.inr (.inl hi1.ge))
  have hnow5 : (d4.goneTo (some yesBlock)).now = d.now := now_goneTo hyesBlock4.toParked
  have hnoBlock5 := (hnoBlock.extends h4.toExtends).goneTo (c := yesBlock)
    (BlockId.ne_of_index (by omega))
  have hnext5 := (h3.reserved.extends h4.toExtends).goneTo (c := yesBlock)
    (BlockId.ne_of_index (by omega))
  -- the first way
  refine .bind (hyes.value (h4.sound.goneTo hyesBlock4.toParked)) ?_
  rintro y d6 ⟨h6, hyplace⟩
  obtain ⟨yesEnd, hyesEnd, -⟩ := h6.latest
  have hext6 : Extends d.size d d6 := hext5.trans (h6.grows.toExtends.mono hext5.size_le)
  have hnoBlock6 := hnoBlock5.extends h6.grows.toExtends
  have hnext6 := hnext5.extends h6.grows.toExtends
  have hylt := h6.ready.lt_size h6.grows.sound
  refine .get_bind ?_
  rw [hyesEnd]
  refine .bind (sends_setCurrent (some noBlock)) ?_
  rintro _ d7 rfl
  have hyesEnd7 : (d6.goneTo (some noBlock)).Parked yesEnd d6.now :=
    h6.grows.sound.parked_of_current hyesEnd fun heq => hnoBlock6.idle (heq ▸ hyesEnd)
  have hext7 : Extends d.size d (d6.goneTo (some noBlock)) := hext6.goneTo (.inr (.inl (by omega)))
  have hnow7 : (d6.goneTo (some noBlock)).now = d.now := now_goneTo hnoBlock6.toParked
  have hnext7 := hnext6.goneTo (c := noBlock) (BlockId.ne_of_index (by omega))
  -- the second way
  refine .bind (hno.value (h6.grows.sound.goneTo hnoBlock6.toParked)) ?_
  rintro n d8 ⟨h8, hnplace⟩
  obtain ⟨noEnd, hnoEnd, -⟩ := h8.latest
  have hext8 : Extends d.size d d8 := hext7.trans (h8.grows.toExtends.mono hext7.size_le)
  have hnlt := h8.ready.lt_size h8.grows.sound
  have hyexpr8 : d8.expr y = d6.expr y := h8.grows.expr_eq y hylt
  have hyn : n ≠ y := by
    rintro rfl
    exact hylt.not_ge h8.ready.le
  refine .get_bind ?_
  rw [hnoEnd]
  refine .typeOf_bind (.typeOf_bind ?_)
  split
  · exact sends_fail _ _
  next type _ =>
  refine .bind (sends_addJoin h8.grows.sound type span) fun join d9 h9 => ?_
  by_cases hjoin : join = expected
  swap
  · -- another number than the one that was foretold
    refine .imp (P := fun e _ => e = join) ?_ fun e d' he heq => absurd (he.symm.trans heq) hjoin
    iterate 8 refine .bind sends_any fun _ _ _ => ?_
    exact .pure rfl
  subst hjoin
  have hlt := h9.lt_size
  have hg9 := h9.grows d.size
  have hcur9 : d9.state.current = some noEnd := h9.current_eq.trans hnoEnd
  have hyesEnd9 : d9.Parked yesEnd d6.now := (hyesEnd7.extends h8.grows.toExtends).extends hg9.toExtends
  have hnext9 := (hnext7.extends h8.grows.toExtends).extends hg9.toExtends
  have hne : yesEnd ≠ noEnd := fun heq => hyesEnd9.idle (heq ▸ hcur9)
  have hyle : d.size ≤ y.index := hext5.size_le.trans h6.ready.le
  have hnle : d.size ≤ n.index := hext7.size_le.trans h8.ready.le
  have hyev9 : d9.Evaluated y := hg9.evaluated (h8.grows.evaluated h6.ready.evaluated)
  have hyunused9 : ¬ d9.Used y := fun h => h6.ready.unused (h8.grows.used hylt (h9.used y h))
  have hyexpr9 : d9.expr y = d6.expr y := (hg9.expr_eq y (hylt.trans_le h8.grows.size_le)).trans hyexpr8
  have hnexpr9 : d9.expr n = d8.expr n := hg9.expr_eq n hnlt
  have hext9 : Extends d.size d d9 := hext8.trans hg9.toExtends
  have hsub : ∀ {W : Set ExprId}, d.now ⊆ W → insert join d.now ⊆ insert join W := fun h =>
    Set.insert_subset_insert h
  refine sends_mergeWay hext9 hg9.sound hext9.size_le hyesEnd9 (hext6.current _ hyesEnd) hyle
    h6.ready.held hyev9 hyunused9 (by rwa [hyexpr9]) hlt (by rw [h9.expr_eq]) (by rw [h9.expr_eq])
    hnext9 (hsub (hnow5 ▸ h6.grows.now)) fun d10 h10 => ?_
  have hnext10 := h10.reserved next _ hnext9 fun heq => hnext6.idle (heq ▸ hyesEnd)
  have hnoEnd10 : d10.Parked noEnd d8.now := h9.now_eq ▸ h10.current noEnd hcur9 hne
  have hlt10 : join.index < d10.size := hlt.trans_le h10.size_le
  have hjoin10 : d10.expr join = ⟨.join, type, span⟩ := (h10.expr_eq join hlt).trans h9.expr_eq
  have hnlt9 := hnlt.trans_le hg9.size_le
  have hnunused10 : ¬ d10.Used n := fun h =>
    (h10.used n h).elim (fun h => h8.ready.unused (h9.used n h)) hyn
  refine sends_mergeWay h10.closes.toExtends h10.closes.sound h10.closes.size_le hnoEnd10
    (hext8.current _ hnoEnd) hnle h8.ready.held
    (h10.evaluated (hg9.evaluated h8.ready.evaluated)) hnunused10
    (by rwa [h10.expr_eq n hnlt9, hnexpr9]) hlt10 (by rw [hjoin10]) (by rw [hjoin10]) hnext10
    (hsub (hnow7 ▸ h8.grows.now)) fun d11 h11 => ?_
  have hnext11 := h11.reserved next _ hnext10 fun heq => hnext9.idle (heq ▸ hcur9)
  have hjoin11 : d11.expr join = ⟨.join, type, span⟩ := (h11.expr_eq join hlt10).trans hjoin10
  refine .bind (sends_setCurrent (some next)) ?_
  rintro _ d12 rfl
  have hnow : (d11.goneTo (some next)).now = insert join d.now := now_goneTo hnext11.toParked
  refine .imp (sends_finishJoin (h11.closes.sound.goneTo hnext11.toParked)
    (h11.closes.toExtends.goneTo (.inr (.inl (by omega)))) (h9.index_eq ▸ hext8.size_le)
    (hlt10.trans_le h11.size_le) (congrArg TypedExpr.op hjoin11) ?_ ?_ ?_ ?_ ?_) fun _ _ h _ => h
  · rw [hnow]
    exact Set.subset_insert _ _
  · rw [hnow]
    exact Set.mem_insert _ _
  · intro h
    exact h9.fresh (h10.fresh join hlt (h11.fresh join hlt10 h))
  · intro h
    rcases h11.used join h with h | rfl
    · rcases h10.used join h with h | rfl
      · exact h9.unused h
      · exact (h9.index_eq ▸ hylt.trans_le h8.grows.size_le).ne rfl
    · exact (h9.index_eq ▸ hnlt).ne rfl
  · obtain ⟨c, hc, hctype, hcor⟩ := h11.value
    refine .inr ⟨c, hc, hctype.trans (congrArg TypedExpr.type hjoin11).symm, hcor.imp_left ?_⟩
    rintro rfl
    exact h9.index_eq ▸ hnlt

/-! ### Operators on places and values -/

/-- An expression over one value that is ready. -/
theorem sends_addOne (hg : Grows d₀.size d₀ d) (hv : d.Ready d₀.size v) (hop : op.operands = [v])
    (hadmits : d.Admits op type) (hjoin : op ≠ .join) :
    Sends d (addExpr op type span) fun e d' => d₀.Yields e d' ∧ d'.expr e = ⟨op, type, span⟩ := by
  refine sends_addOver hg (fun x hx => ?_) hadmits hjoin
  rw [hop, mem_singleton] at hx
  exact hx ▸ hv

/-- An expression over two values that are ready. -/
theorem sends_addTwo (hg : Grows d₀.size d₀ d) (hl : d.Ready d₀.size l) (hr : d.Ready d₀.size r)
    (hop : op.operands = [l, r]) (hadmits : d.Admits op type) (hjoin : op ≠ .join) :
    Sends d (addExpr op type span) fun e d' => d₀.Yields e d' := by
  refine .imp (sends_addOver hg (fun x hx => ?_) hadmits hjoin) fun e d' h => h.1
  rw [hop, mem_cons, mem_singleton] at hx
  rcases hx with rfl | rfl
  · exact hl
  · exact hr

/-- An operator on an integer. -/
theorem sends_integerOp (op : ValueOp) (span : Span) (hoperand : operand.Sound) (hd : d.Sound) :
    Sends d (do
      let v ← requireInteger (← operand.value)
      addExpr (.unary op v) .int span) fun e d' => d.Yields e d' := by
  refine .bind (hoperand.value hd) ?_
  rintro v d1 ⟨h1, hplace⟩
  refine .bind (sends_requireInteger h1.grows.sound h1.grows.size_le h1.ready) ?_
  rintro w d2 ⟨hconv, -, hplace2⟩
  exact .imp (sends_addOne (h1.grows.trans hconv.grows) hconv.ready rfl ⟨hplace2 hplace, rfl⟩
    (by simp)) fun _ _ h => h.1

theorem sends_lowerUnary_step (span : Span) (location : Location) (increment before : Bool)
    (hoperand : operand.Sound) (hd : d.Sound) :
    Sends d (lowerUnary.step span operand location increment before) fun e d' => d.Yields e d' := by
  refine .bind (hoperand.target hd location) ?_
  rintro t d1 ⟨h1, hplace⟩
  refine .bind (sends_requireScalar t) ?_
  rintro _ _ rfl
  refine .typeOf_bind ?_
  exact .imp (sends_addOne h1.grows h1.ready rfl ⟨hplace, rfl⟩ (by simp)) fun _ _ h => h.1

theorem sends_lowerUnary (span : Span) (op : UnaryOp) (location : Location) (hoperand : operand.Sound)
    (hd : d.Sound) : Sends d (lowerUnary span op operand location) fun e d' => d.Yields e d' := by
  cases op with
  | neg => exact sends_integerOp .neg span hoperand hd
  | bitNot => exact sends_integerOp .bitNot span hoperand hd
  | not =>
    refine .bind (hoperand.value hd) ?_
    rintro v d1 ⟨h1, hplace⟩
    refine .bind (sends_requireScalar v) ?_
    rintro _ _ rfl
    exact .imp (sends_addOne h1.grows h1.ready rfl ⟨hplace, rfl⟩ (by simp)) fun _ _ h => h.1
  | deref =>
    refine .bind (hoperand.value hd) ?_
    rintro v d1 ⟨h1, -⟩
    refine .typeOf_bind ?_
    split
    · split
      · exact sends_fail _ _
      · exact .imp (sends_addOne h1.grows h1.ready rfl trivial (by simp)) fun _ _ h => h.1
    · exact sends_fail _ _
  | addrOf =>
    refine .bind (hoperand.target hd location) ?_
    rintro t d1 ⟨h1, -⟩
    refine .typeOf_bind ?_
    exact .imp (sends_addOne h1.grows h1.ready rfl trivial (by simp)) fun _ _ h => h.1
  | preInc | preDec | postInc | postDec => exact sends_lowerUnary_step span location _ _ hoperand hd

/-- An assignment. -/
theorem sends_lowerAssign {target value : Lowered} (span : Span) (op : Option BinaryOp)
    (location : Location) (htarget : target.Sound) (hvalue : value.Sound) (hd : d.Sound) :
    Sends d (lowerAssign span op target value location) fun e d' => d.Yields e d' := by
  refine .bind (htarget.target hd location) ?_
  rintro t d1 ⟨h1, htplace⟩
  refine .typeOf_bind ?_
  split
  · exact sends_fail _ _
  refine .bind (hvalue.value h1.grows.sound) ?_
  rintro v d2 ⟨h2, hvplace⟩
  have htlt : t.index < d1.size := h1.ready.lt_size h1.grows.sound
  have hg2 : Grows d.size d d2 := h1.grows.trans (h2.grows.mono h1.grows.size_le)
  have ht2 : d2.Ready d.size t := h1.ready.grows h1.grows.sound h2.grows
  have hv2 : d2.Ready d.size v := h2.ready.mono h1.grows.size_le
  have htexpr2 : d2.expr t = d1.expr t := h2.grows.expr_eq t htlt
  have hne : t ≠ v := by
    rintro rfl
    exact htlt.not_ge h2.ready.le
  cases op with
  | none =>
    refine .bind (sends_convert hg2.sound hg2.size_le hv2 _) ?_
    rintro w d3 ⟨hconv, -, hplace, -⟩
    have htexpr3 : d3.expr t = d1.expr t :=
      (hconv.grows.expr_eq t (ht2.lt_size hg2.sound)).trans htexpr2
    exact sends_addTwo (hg2.trans hconv.grows) (hconv.others hne ht2) hconv.ready rfl
      ⟨by rw [htexpr3, htplace], hplace hvplace, by rw [htexpr3]⟩ (by simp)
  | some op =>
    refine .bind (sends_requireScalar t) ?_
    rintro _ _ rfl
    split
    · exact .typeOf_bind (sends_fail _ _)
    refine .bind (sends_requireInteger hg2.sound hg2.size_le hv2) ?_
    rintro w d3 ⟨hconv, -, hplace⟩
    have htexpr3 : d3.expr t = d1.expr t :=
      (hconv.grows.expr_eq t (ht2.lt_size hg2.sound)).trans htexpr2
    exact sends_addTwo (hg2.trans hconv.grows) (hconv.others hne ht2) hconv.ready rfl
      ⟨by rw [htexpr3, htplace], hplace hvplace, by rw [htexpr3]⟩ (by simp)

/-- What is left to do for an index once both values are there, in either order. -/
theorem sends_indexOf {b i : ExprId} (span : Span) (bt : CType) (hg : Grows d₀.size d₀ d)
    (hb : d.Ready d₀.size b) (hi : d.Ready d₀.size i) (hne : b ≠ i) :
    Sends d (match bt.pointee? with
      | some element =>
        if element.isVoid then fail (.invalidOperands (.subscripted bt)) span.first
        else do
          let i ← requireInteger i
          addExpr (.index b i) element span
      | none => fail (.invalidOperands (.subscripted bt)) span.first) fun e d' => d₀.Yields e d' := by
  split
  · split
    · exact sends_fail _ _
    refine .bind (sends_requireInteger hg.sound hg.size_le hi) ?_
    rintro j d1 ⟨hconv, -, -⟩
    exact sends_addTwo (hg.trans hconv.grows) (hconv.others hne hb) hconv.ready rfl trivial (by simp)
  · exact sends_fail _ _

theorem sends_lowerIndex {index : Lowered} (span : Span) (hbase : base.Sound) (hindex : index.Sound)
    (hd : d.Sound) : Sends d (lowerIndex span base index) fun e d' => d.Yields e d' := by
  refine sends_two hbase hindex hd fun b i d1 hg hb hi hne _ _ => ?_
  refine .typeOf_bind (.typeOf_bind ?_)
  split
  next b' i' bt' heq =>
  split at heq
  · cases heq
    exact sends_indexOf span _ hg hi hb hne.symm
  · cases heq
    exact sends_indexOf span _ hg hb hi hne

/-- A field of a structure. -/
theorem sends_lowerMember (span baseSpan : Span) (field : String) (arrow : Bool) (hbase : base.Sound)
    (hd : d.Sound) : Sends d (lowerMember span base baseSpan field arrow) fun e d' => d.Yields e d' := by
  refine .bind (P := fun e d' => d.Yields e d') ?_ fun object d1 h1 => ?_
  · split
    · refine .bind (hbase.value hd) ?_
      rintro v d1 ⟨h1, -⟩
      refine .typeOf_bind ?_
      split
      · exact .imp (sends_addOne h1.grows h1.ready rfl trivial (by simp)) fun _ _ h => h.1
      · exact sends_fail _ _
    · exact .imp (hbase.target hd _) fun _ _ h => h.1
  · refine .typeOf_bind ?_
    split
    · refine .get_bind ?_
      dsimp only
      split
      · exact sends_fail _ _
      · split
        · exact sends_fail _ _
        · exact .imp (sends_addOne h1.grows h1.ready rfl trivial (by simp)) fun _ _ h => h.1
    · exact sends_fail _ _

/-! ### Calls -/

theorem sends_resolveFunction (hd : d.Sound) (name : String) (l : Location) :
    Sends d (resolveFunction name l) fun _ d' => Grows d.size d d' := by
  refine .get_bind ?_
  dsimp only
  split
  · exact .pure (.refl _ hd)
  · intro f s hact
    cases hact
    exact ⟨d.withFunctions _, rfl, grows_withFunctions d.size hd (announces_push rfl)⟩

/-- Nothing but functions stays of an expression that is not evaluated. -/
theorem sends_typeOfUnevaluated {x : Lowered} {names : List String} (hx : x.Sound)
    (hspares : x.Spares names) (hd : d.Sound) :
    Sends d (typeOfUnevaluated x) fun _ d' => Grows d.size d d' := by
  intro t s hact
  obtain ⟨e, s1, hplace, -, -, rfl⟩ := of_typeOfUnevaluated hspares hact
  obtain ⟨d1, rfl, h1⟩ := hx.place d hd e s1 hplace
  have h := h1.grows.announces
  rw [Lowering.reopened_of_open hd.current]
  exact ⟨d.withFunctions d1.program.functions, rfl, grows_withFunctions d.size hd
    ⟨h.size_le, h.function_eq, h.body_eq_none⟩⟩

theorem sends_requireComplete (type : CType) (l : Location) :
    Sends d (requireComplete type l) fun _ d' => d' = d := by
  refine .get_bind ?_
  intro u s hact
  cases hcheck : checkComplete d.program type l with
  | error err =>
    rw [hcheck] at hact
    cases hact
  | ok _ =>
    rw [hcheck] at hact
    cases hact
    exact ⟨d, rfl, rfl⟩

theorem sends_passArgument {e : ExprId} (hd : d.Sound) (hn : n ≤ d.size) (he : d.Ready n e)
    (param : Option CType) :
    Sends d (passArgument e param) fun e' d' => Converts n d e e' d' := by
  cases param with
  | some type => exact .imp (sends_convert hd hn he type) fun _ _ h => h.1
  | none =>
    refine .typeOf_bind ?_
    split
    · exact .imp (sends_convert hd hn he .int) fun _ _ h => h.1
    · exact .pure (.refl hd he)

/-- A call, given that its arguments are built rightly. -/
theorem sends_lowerCall (span : Span) (callee : String) (count : Nat)
    {args : List CType → Lower (List ExprId)} (hd : d.Sound)
    (hargs : ∀ (params : List CType) (d1 : Draft), d1.Sound → Sends d1 (args params) fun vs d' =>
      Grows d1.size d1 d' ∧ ∀ v ∈ vs, d'.Ready d1.size v) :
    Sends d (lowerCall span callee count args) fun e d' => d.Yields e d' := by
  refine .bind (sends_resolveFunction hd callee span.first) fun f d1 hg1 => ?_
  refine .get_bind ?_
  dsimp only
  split
  · refine .bind (hargs _ _ hg1.sound) ?_
    rintro vs d2 ⟨h2, hready⟩
    exact .imp (sends_addOver (hg1.trans (h2.mono hg1.size_le))
      (fun x hx => (hready x hx).mono hg1.size_le) trivial (by simp)) fun _ _ h => h.1
  · exact sends_fail _ _

/-! ### Expressions -/

/-- An expression without operands. -/
theorem sends_addLeaf (hg : Grows d₀.size d₀ d) (hop : op.operands = []) (hadmits : d.Admits op type)
    (hjoin : op ≠ .join) : Sends d (addExpr op type span) fun e d' => d₀.Yields e d' :=
  Sends.imp (sends_addOver hg (by simp [hop]) hadmits hjoin) fun _ _ h => h.1

theorem sends_lowerIdent (span : Span) (name : String) (hd : d.Sound) : Sends d (do
      let s ← get
      match lookup? s name with
      | some v => addExpr (.var v) (s.program.var v).type span
      | none => fail (.unknownIdentifier name) span.first) fun e d' => d.Yields e d' := by
  refine .get_bind ?_
  split
  · next v hv => exact sends_addLeaf (.refl _ hd) rfl ⟨hd.lt_of_lookup hv, rfl⟩ (by simp)
  · exact sends_fail _ _

mutual

/-- **Building an expression is right**, for its value and as a condition. -/
theorem lower_sound (e : Expr) : (lower e).Sound := by
  unfold lower
  match e with
  | .int span n | .char span n =>
    exact sound_ofPlace _ fun d hd => sends_addLeaf (.refl _ hd) rfl (.inl rfl) (by simp)
  | .string span s | .null span =>
    exact sound_ofPlace _ fun d hd => sends_addLeaf (.refl _ hd) rfl trivial (by simp)
  | .ident span name => exact sound_ofPlace _ fun d hd => sends_lowerIdent span name hd
  | .binary span op l r =>
    exact sound_ofPlace _ fun d hd => sends_lowerBinary span op (lower_sound l) (lower_sound r) hd
  | .logical span op l r =>
    exact ⟨fun d hd => sends_lowerLogical span op (lower_sound l) (lower_sound r) hd,
      fun d yes no kind hd hyes hno hyes' hno' =>
        sends_branchLogical op (lower_sound l) (lower_sound r) kind hd hyes hno hyes' hno'⟩
  | .unary span op a => exact sound_ofPlace _ fun d hd => sends_lowerUnary span op _ (lower_sound a) hd
  | .assign span op t v =>
    exact sound_ofPlace _ fun d hd => sends_lowerAssign span op _ (lower_sound t) (lower_sound v) hd
  | .conditional span c y n =>
    exact sound_ofPlace _ fun d hd =>
      sends_lowerConditional span (lower_sound c) (lower_sound y) (lower_sound n) hd
  | .call span callee args =>
    exact sound_ofPlace _ fun d hd =>
      sends_lowerCall span callee args.length hd fun params d1 hd1 => sends_lowerArgs args params hd1
  | .index span b i =>
    exact sound_ofPlace _ fun d hd => sends_lowerIndex span (lower_sound b) (lower_sound i) hd
  | .member span b field arrow =>
    exact sound_ofPlace _ fun d hd => sends_lowerMember span b.span field arrow (lower_sound b) hd
  | .cast span type a =>
    refine sound_ofPlace _ fun d hd => ?_
    refine .bind (sends_requireComplete type span.first) ?_
    rintro _ _ rfl
    refine .bind ((lower_sound a).value hd) ?_
    rintro v d1 ⟨h1, -⟩
    refine .typeOf_bind ?_
    split
    · exact .imp (sends_addOne h1.grows h1.ready rfl trivial (by simp)) fun _ _ h => h.1
    · exact sends_fail _ _
  | .sizeofType span type =>
    refine sound_ofPlace _ fun d hd => ?_
    refine .bind (sends_requireComplete type span.first) ?_
    rintro _ _ rfl
    exact .get_bind (sends_addLeaf (.refl _ hd) rfl (.inl rfl) (by simp))
  | .sizeofExpr span a =>
    refine sound_ofPlace _ fun d hd => ?_
    refine .bind (sends_typeOfUnevaluated (lower_sound a) (lower_spares a) hd) fun t d1 hg1 => ?_
    exact .get_bind (sends_addLeaf hg1 rfl (.inl rfl) (by simp))

/-- Building the arguments of a call leaves the values of all of them ready. -/
theorem sends_lowerArgs (args : List Expr) (params : List CType) {d : Draft} (hd : d.Sound) :
    Sends d (lowerArgs args params) fun vs d' => Grows d.size d d' ∧ ∀ v ∈ vs, d'.Ready d.size v := by
  unfold lowerArgs
  match args with
  | [] => exact .pure ⟨.refl _ hd, by simp⟩
  | a :: rest =>
    refine .bind ((lower_sound a).value hd) ?_
    rintro v d1 ⟨h1, -⟩
    refine .bind (sends_passArgument h1.grows.sound h1.grows.size_le h1.ready _) ?_
    rintro w d2 hconv
    have hg2 := h1.grows.trans hconv.grows
    refine .bind (sends_lowerArgs rest params.tail hg2.sound) ?_
    rintro vs d3 ⟨h3, hready⟩
    refine .pure ⟨hg2.trans (h3.mono hg2.size_le), fun x hx => ?_⟩
    rcases mem_cons.1 hx with rfl | hx
    · exact hconv.ready.grows hg2.sound h3
    · exact (hready x hx).mono hg2.size_le

end

end Lower

end PathScout

import PathScout.Exploration.Step
import PathScout.Proofs.Invalidation

/-!
# Catalogs only grow

Everything that reads, writes or checks on a path may give numbers to regions and symbols, and does
nothing else to the catalog. There is one lemma for each such action; each follows the definition of
the action.

* `Naming.grows_binary`: operators.
* `StorePolicy.grows_retrieve`, `StorePolicy.grows_invalidate`: memory under both policies.
* `State.grows_evaluate?`, `State.grows_ofGlobals`: values of expressions and of global variables.
* `Checker.grows_check`, `Checker.grows_evalCall?`: checkers.
-/

namespace PathScout

open Naming

namespace Naming

variable {α β : Type}

theorem Grows.foldlM {f : β → α → Naming β} (hf : ∀ b x, Grows (f b x)) (b : β) (xs : List α) :
    Grows (xs.foldlM f b) := by
  induction xs generalizing b with
  | nil => exact grows_pure b
  | cons x xs ih =>
    rw [List.foldlM_cons]
    exact (hf b x).bind fun b => ih b

theorem Grows.foldrM {f : α → β → Naming β} (hf : ∀ x b, Grows (f x b)) (b : β) (xs : List α) :
    Grows (xs.foldrM f b) := by
  rw [← List.foldlM_reverse]
  exact .foldlM (fun b x => hf x b) b xs.reverse

theorem Grows.filterM {f : α → Naming Bool} (hf : ∀ x, Grows (f x)) (xs : List α) :
    Grows (xs.filterM f) := by
  have hauto : ∀ (ys : List α), Grows (xs.filterAuxM f ys) := by
    induction xs with
    | nil => exact fun ys => grows_pure _
    | cons x xs ih =>
      intro ys
      exact (hf x).bind fun b => ih _
  exact (hauto []).bind fun _ => grows_pure _

/-! ### Objects -/

theorem grows_inSpace (s : Space) (object : RegionId → Region) :
    Grows (do region (object (← space s))) := (grows_space s).bind fun _ => grows_region _

theorem grows_string (e : ExprId) : Grows (string e) := grows_inSpace _ _

theorem grows_symbolicHeap (s : SymbolId) : Grows (symbolicHeap s) := grows_inSpace _ _

theorem grows_alloca (e : ExprId) (count : Nat) (f : FrameId) : Grows (alloca e count f) :=
  grows_inSpace _ _

theorem grows_castRegion (r : RegionId) (t : CType) : Grows (castRegion r t) :=
  (grows_query _).bind fun _ => .ite (grows_pure _) (grows_region _)

theorem grows_rebase (r outer onto : RegionId) : Grows (rebase r outer onto) :=
  (grows_query _).bind fun path => .foldrM (fun part below => by
    split
    · exact grows_region _
    · exact grows_region _
    · exact grows_pure _) onto path

theorem grows_pointer {x : Naming RegionId} (hx : x.Grows) : Grows (do return Value.pointer (← x)) :=
  hx.bind fun _ => grows_pure _

theorem grows_within {part : RegionId → Naming RegionId} (v : Value) (h : ∀ r, (part r).Grows) :
    Grows (within v part) := by
  unfold within
  split
  · exact grows_pointer (h _)
  · exact grows_pure _

/-! ### Operators -/

theorem grows_symbolWithInt (s : SymbolId) (op : BinaryOp) (n : Int) (t : CType) :
    Grows (symbolWithInt s op n t) := by
  intro c
  fun_induction symbolWithInt s op n t c with
  | case1 => exact le_rfl
  | case2 s op n hnone p hp ih => exact ih
  | case3 s op n hnone hp i d hsymbol =>
    have hle := grows_symbol (.symInt s op n t) c
    rwa [hsymbol] at hle

theorem grows_compareWithAddress (op : BinaryOp) (r : RegionId) (n : Int) :
    Grows (compareWithAddress op r n) := by
  refine .ite (grows_pure _) ((grows_query _).bind fun base? => ?_)
  cases base? with
  | none => exact grows_pure _
  | some s => exact (grows_symbol _).bind fun _ => grows_pure _

theorem grows_binaryLocs (op : BinaryOp) (l r : Loc) : Grows (binaryLocs op l r) := by
  unfold binaryLocs
  split
  · exact grows_pure _
  · exact grows_compareWithAddress _ _ _
  · split
    · exact grows_compareWithAddress _ _ _
    · exact grows_pure _
  · exact grows_query _

theorem grows_moveRegion (t : CType) (r : RegionId) (n : Int) : Grows (moveRegion t r n) := by
  refine .ite (grows_pure _) ((grows_query _).bind fun region => ?_)
  split
  · exact .ite (grows_pointer (grows_region _)) (grows_pointer (grows_region _))
  · exact grows_pointer (grows_region _)

theorem grows_moveRegionBy (t : CType) (r : RegionId) (s : SymbolId) : Grows (moveRegionBy t r s) := by
  refine (grows_query _).bind fun region => ?_
  split
  · exact .ite (grows_pointer (grows_region _)) (grows_pure _)
  · exact grows_pure _
  · exact grows_pointer (grows_region _)

theorem grows_binaryLocInt (op : BinaryOp) (l : Loc) (v : Value) (t : CType) :
    Grows (binaryLocInt op l v t) := by
  refine .ite ?_ ?_
  · dsimp only
    split
    · exact (grows_query _).bind fun _ => grows_pure _
    · exact grows_moveRegion _ _ _
    · exact .ite (grows_moveRegionBy _ _ _) (grows_pure _)
    · exact grows_pure _
  · split
    · exact .ite (grows_binaryLocs _ _ _) (grows_pure _)
    · exact grows_pure _

theorem grows_binaryInts (op : BinaryOp) (l r : Value) (t : CType) : Grows (binaryInts op l r t) := by
  unfold binaryInts
  split
  · exact grows_pure _
  · exact grows_symbolWithInt _ _ _ _
  · split
    · exact grows_symbolWithInt _ _ _ _
    · exact .ite (grows_symbolWithInt _ _ _ _) ((grows_symbol _).bind fun _ => grows_pure _)
  · split
    · exact grows_pure _
    · exact (grows_symbol _).bind fun _ => grows_pure _
  · exact .ite (grows_binaryLocs _ _ _) (grows_pure _)
  · exact grows_pure _

theorem grows_binary (op : BinaryOp) (l r : Value) (t : CType) : Grows (binary op l r t) := by
  refine .ite (grows_pure _) (.ite (grows_pure _) ?_)
  split
  · exact grows_binaryLocs _ _ _
  · exact grows_binaryLocInt _ _ _ _
  · exact .ite (grows_binaryLocInt _ _ _ _) (grows_pure _)
  · exact grows_binaryInts _ _ _ _

theorem grows_unary (op : ValueOp) (v : Value) (t : CType) : Grows (unary op v t) := by
  cases op with
  | not | neg | bitNot => exact grows_binary _ _ _ _

end Naming

/-! ### Memory -/

namespace Store

theorem grows_initialValue (r : RegionId) (t : CType) : (initialValue r t).Grows := by
  refine (grows_query _).bind fun byte? => ?_
  split
  · exact grows_pure _
  · refine (grows_query _).bind fun space => ?_
    split
    · exact grows_pure _
    · exact grows_pure _
    · exact grows_scalarValue _

theorem grows_retrieveFrom (bindings : List (BindingKey × Value)) (r : RegionId) (t : CType) :
    Naming.Grows (retrieveFrom bindings r t) := by
  intro c
  fun_induction retrieveFrom bindings r t c with
  | case6 => exact grows_initialValue _ _ _
  | case7 => exact grows_symbolValue _ _
  | case8 => exact grows_scalarValue _ _
  | case9 bindings r c direct hs ha hd q inner source hq path d hrebase ih =>
    have hle := grows_rebase r q source c
    rw [hrebase] at hle
    exact hle.trans ih
  | _ => exact le_rfl

theorem grows_retrieve (s : Store) (l : Loc) (t : CType) : (s.retrieve l t).Grows := by
  cases l with
  | address _ => exact grows_pure _
  | region r => exact grows_retrieveFrom s.bindings.entries r t

theorem grows_retrieveFlat (s : Store) (l : Loc) (t : CType) : (s.retrieveFlat l t).Grows := by
  cases l with
  | address _ => exact grows_pure _
  | region r =>
    refine (grows_query _).bind fun isVar => .ite ?_ (grows_pure _)
    split
    · exact grows_pure _
    · exact (grows_query _).bind fun _ => .ite (grows_pure _) (grows_scalarValue _)

theorem grows_forgetFlat (before : Store) (request : Invalidation) (objects seen : List RegionId)
    (s : Store) (symbols : List SymbolId) :
    (forgetFlat before request objects seen s symbols).Grows := by
  induction objects generalizing seen s symbols with
  | nil => exact grows_pure _
  | cons r rest ih =>
    refine (grows_query _).bind fun _ => .ite (ih _ _ _) ?_
    exact (grows_query _).bind fun _ => (grows_conjureContents r request).bind fun _ => ih _ _ _

theorem grows_invalidationRoots (request : Invalidation) : (invalidationRoots request).Grows :=
  (grows_query _).bind fun _ => .ite ((grows_query _).bind fun _ =>
    (Naming.Grows.mapM (fun v => grows_var v _) _).bind fun _ => grows_pure _)
    (grows_pure _)

end Store

namespace StorePolicy

theorem grows_retrieve (p : StorePolicy) (s : Store) (l : Loc) (t : CType) :
    (p.retrieve s l t).Grows := by
  cases p with
  | region => exact Store.grows_retrieve s l t
  | flat => exact Store.grows_retrieveFlat s l t

theorem grows_invalidate (p : StorePolicy) (s : Store) (request : Invalidation) :
    (p.invalidate s request).Grows := by
  cases p with
  | region => exact Store.grows_invalidate s request
  | flat =>
    exact (Store.grows_invalidationRoots request).bind fun _ => Store.grows_forgetFlat _ _ _ _ _ _

end StorePolicy

/-! ### States -/

namespace State

variable {s : State}

theorem grows_evaluate? (s : State) (f : FrameId) (e : ExprId) : (s.evaluate? f e).Grows := by
  refine (grows_query _).bind fun program => ?_
  dsimp only
  split
  · exact grows_pure _
  · exact grows_pure _
  · exact (grows_string e).bind fun _ => grows_pure _
  · exact (grows_var _ f).bind fun _ => grows_pure _
  · exact grows_pure _
  · exact (grows_within _ fun _ => grows_region _).bind fun _ => grows_pure _
  · exact (grows_within _ fun r => grows_castRegion r _).bind fun _ => grows_pure _
  · exact (grows_unary _ _ _).bind fun _ => grows_pure _
  · exact .ite ((grows_query _).bind fun _ => grows_pure _)
      ((grows_binary _ _ _ _).bind fun _ => grows_pure _)
  · exact (grows_within _ fun _ => grows_region _).bind fun _ => grows_pure _
  · exact (grows_binary _ _ _ _).bind fun _ =>
      (grows_within _ fun r => grows_castRegion r _).bind fun _ => grows_pure _
  · exact grows_pure _
  all_goals exact grows_pure _

theorem grows_updated (s : State) (f : FrameId) (e : TypedExpr) (old : Value) :
    (s.updated f e old).Grows := by
  unfold updated
  split
  · exact grows_pure _
  iterate 2
    · exact (grows_binary _ _ _ _).bind fun _ => grows_pure _
  · exact grows_pure _

theorem grows_write (s : State) (p : StorePolicy) (r : RegionId) (v : Value) :
    (s.write p r v).Grows := grows_query _

theorem grows_writeText (s : State) (p : StorePolicy) (r : RegionId) (text : String) :
    (s.writeText p r text).Grows :=
  (grows_query _).bind fun s => .foldlM (fun _ _ =>
    (grows_region _).bind fun _ => grows_write _ _ _ _) s _

theorem grows_partAt (r : RegionId) (t : CType) (path : List InitStep) : (partAt r t path).Grows := by
  induction path generalizing r t with
  | nil => exact grows_pure r
  | cons step rest ih =>
    cases step with
    | element i => exact (grows_region _).bind fun _ => ih _ _
    | field field => exact (grows_query _).bind fun _ => (grows_region _).bind fun _ => ih _ _

theorem grows_writeList (s : State) (p : StorePolicy) (f : FrameId) (r : RegionId) (t : CType)
    (entries : List InitEntry) : (s.writeList p f r t entries).Grows :=
  (grows_query _).bind fun s => .foldlM (fun _ _ =>
    (grows_partAt _ _ _).bind fun _ => grows_write _ _ _ _) s entries

theorem grows_partOf? (r : RegionId) (t : CType) (i : Nat) : (partOf? r t i).Grows := by
  unfold partOf?
  split
  · exact (grows_region _).bind fun _ => grows_pure _
  · refine (grows_query _).bind fun _ => ?_
    split
    · exact grows_pure _
    · split
      · exact grows_pure _
      · exact (grows_region _).bind fun _ => grows_pure _
  · exact grows_pure _

mutual

theorem grows_writeConst (p : StorePolicy) (s : State) (r : RegionId) (t : CType) :
    (init : ConstInit) → (writeConst p s r t init).Grows
  | .int n => grows_write s p r (.ofInt n t)
  | .null => grows_write s p r .null
  | .string e => by
    unfold writeConst
    exact .ite ((grows_string e).bind fun _ =>
      (grows_region _).bind fun _ => grows_write _ _ _ _) (grows_pure _)
  | .list items => by
    unfold writeConst
    exact grows_writeConsts p _ r t 0 items

theorem grows_writeConsts (p : StorePolicy) (s : State) (r : RegionId) (t : CType) (i : Nat) :
    (items : List ConstInit) → (writeConsts p s r t i items).Grows
  | [] => grows_pure s
  | item :: rest => by
    unfold writeConsts
    refine (grows_partOf? r t i).bind fun part? => ?_
    cases part? with
    | none => exact grows_pure s
    | some part =>
      exact (grows_writeConst p s part.1 part.2 item).bind fun s' =>
        grows_writeConsts p s' r t (i + 1) rest

end

theorem grows_ofGlobals (p : StorePolicy) (f : FrameId) : (ofGlobals p f).Grows := by
  refine (grows_query _).bind fun program => .foldlM (fun s g => ?_) _ _
  refine (grows_var g.var f).bind fun r => ?_
  cases g.value with
  | none => exact grows_pure _
  | some init => exact grows_writeConst p s r _ init

end State

/-! ### Checkers -/

namespace Allocation

variable (s : Scene)

theorem grows_evalCall? (call : CallEvent) : (evalCall? s call).Grows := by
  have hallocate : ∀ zeroed, (allocate s call zeroed).Grows := fun zeroed =>
    (grows_query _).bind fun _ => (grows_symbol _).bind fun _ =>
      (grows_symbolicHeap _).bind fun _ => grows_pure _
  unfold evalCall?
  split
  iterate 2
    · exact (hallocate _).bind fun _ => grows_pure _
  · exact (grows_query _).bind fun _ => grows_pure _
  · exact ((grows_alloca _ _ _).bind fun _ => grows_pure _).bind fun _ => grows_pure _
  · exact grows_pure _

theorem grows_checkDead (marks : Marks) : (checkDead s marks).Grows := by
  refine (grows_query _).bind fun dead => ?_
  refine (Naming.Grows.filterM (fun a => ?_) dead).bind fun leaks => ?_
  · exact .ite ((grows_symbolicHeap _).bind fun _ => grows_query _) (grows_pure _)
  · exact .ite (grows_pure _) ((grows_query _).bind fun _ => grows_pure _)

theorem grows_check (event : Event) : (check event s).Grows := by
  cases event with
  | callBegins | access => exact grows_query _
  | callEnds => exact .ite (grows_query _) (grows_pure _)
  | write location value span =>
    unfold check
    dsimp only
    split
    · exact grows_pure _
    · exact grows_query _
  | dead marks => exact grows_checkDead s marks
  | element | condition | functionEnds => exact grows_pure _

end Allocation

namespace NullPointer

theorem grows_finding (type : BugType) (description : String) (place : ExprId) (f : FrameId) :
    (finding type description place f).Grows := by
  refine (grows_query _).bind fun program => ?_
  dsimp only
  split
  · exact (grows_var _ f).bind fun _ => grows_pure _
  · exact grows_pure _

theorem grows_check (event : Event) (s : Scene) : (check event s).Grows := by
  cases event with
  | access location place =>
    refine .ite ((grows_finding _ _ _ _).bind fun _ => grows_pure _)
      (.ite (grows_pure _) ((grows_query _).bind fun ways => ?_))
    dsimp only
    split
    · exact grows_pure _
    · exact (grows_query _).bind fun _ => (grows_finding _ _ _ _).bind fun _ => grows_pure _
    · exact grows_pure _
  | _ => exact grows_pure _

end NullPointer

namespace Garbage

variable (s : Scene)

theorem grows_stop (type : BugType) (description : String) (location : Location)
    (culprit : Option ExprId) : (stop s type description location culprit).Grows := by
  refine (grows_query _).bind fun program => ?_
  dsimp only
  split
  · exact (grows_var _ _).bind fun _ => grows_pure _
  · exact grows_pure _

theorem grows_holdsGarbage (place : ExprId) : (holdsGarbage s place).Grows := by
  unfold holdsGarbage
  split
  · exact (grows_query _).bind fun _ => (StorePolicy.grows_retrieve _ _ _ _).bind fun _ => grows_pure _
  · exact grows_pure _

theorem grows_checkExpr (e : ExprId) : (checkExpr s e).Grows := by
  refine (grows_query _).bind fun expr => ?_
  split
  · split
    · exact grows_stop _ _ _ _ _
    · exact grows_pure _
  iterate 2
    · exact (grows_holdsGarbage s _).bind fun _ => .ite (grows_stop _ _ _ _ _) (grows_pure _)
  · exact grows_pure _

theorem grows_check (event : Event) : (check event s).Grows := by
  unfold check
  split
  · exact grows_checkExpr s _
  · exact .ite (grows_stop _ _ _ _ _) (grows_pure _)
  · split
    · exact (grows_query _).bind fun _ => grows_stop _ _ _ _ _
    · exact grows_pure _
  · exact .ite (grows_pure _) (grows_pure _)
  · exact .ite ((grows_query _).bind fun _ => grows_stop _ _ _ _ _) (grows_pure _)
  · exact grows_pure _

end Garbage

namespace Checker

/-- **Checkers only add to the catalog.** -/
theorem grows_check (checker : Checker) (event : Event) (s : Scene) :
    (checker.check event s).Grows := by
  cases checker with
  | nullDereference => exact NullPointer.grows_check event s
  | undefinedValue => exact Garbage.grows_check s event
  | divideZero =>
    show (Division.check event s).Grows
    unfold Division.check
    split
    · exact grows_query _
    · exact grows_pure _
  | stackAddressEscape =>
    show (StackEscape.check event s).Grows
    unfold StackEscape.check
    split
    · exact grows_query _
    · exact grows_query _
    · exact grows_pure _
  | malloc => exact Allocation.grows_check s event
  | noReturn => exact grows_pure _

theorem grows_evalCall? (checker : Checker) (call : CallEvent) (s : Scene) :
    (checker.evalCall? call s).Grows := by
  cases checker with
  | malloc => exact Allocation.grows_evalCall? s call
  | _ => exact grows_pure _

end Checker

end PathScout

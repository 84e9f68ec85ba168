import Mathlib.Tactic
import PathScout.Lowering.Unit

/-!
# Lexical scopes

Which declaration every identifier of a text stands for, read off the text alone. What is known of
names is passed from the start of the text to its end; where a block or a `for` ends, the names are
again those from before it.

* `Scoping`: what is known of names at a place of a text.
* `Expr.resolve`, `Stmt.resolve`, `SourceUnit.resolve`: how a part of a text changes it.
* `Stmt.exposed`: the names that a statement declares for what comes after it.
* `Stmt.exposes_resolve`: a statement changes the names in scope by exactly those.
-/

namespace PathScout

open List Option

/-- What is known of names at a place of a text. -/
structure Scoping where
  /-- The names in scope and their variables; the innermost declaration comes first. -/
  names : Names := []
  /-- All variables that were declared, by name and place. -/
  declared : List (String × Location) := []
  /-- What the identifiers stand for, in the order in which they are evaluated. -/
  uses : List VarId := []

namespace Scoping

/-- A variable is declared. -/
def declare (name : String) (l : Location) (r : Scoping) : Scoping :=
  { r with
    names := (name, ⟨r.declared.length⟩) :: r.names
    declared := r.declared ++ [(name, l)] }

/-- An identifier stands for the innermost declaration of its name, if there is one. -/
def use? (name : String) (r : Scoping) : Option Scoping :=
  (r.names.lookup name).map fun v => { r with uses := r.uses ++ [v] }

/-- A scope ends: the names are those from before it. -/
def enclosed (inside : Scoping → Option Scoping) (r : Scoping) : Option Scoping :=
  (inside r).map fun r' => { r' with names := r.names }

/-- What is not evaluated leaves nothing behind, but its identifiers must stand for something. -/
def unevaluated (inside : Scoping → Option Scoping) (r : Scoping) : Option Scoping :=
  (inside r).map fun _ => r

end Scoping

open Scoping

/-! ### Resolution -/

mutual

/-- The identifiers of an expression. -/
def Expr.resolve (e : Expr) : Scoping → Option Scoping :=
  match e with
  | .int .. | .char .. | .string .. | .null _ | .sizeofType .. => some
  | .ident _ name => use? name
  | .binary _ _ l r | .logical _ _ l r | .assign _ _ l r | .index _ l r => l.resolve >=> r.resolve
  | .unary _ _ a | .cast _ _ a | .member _ a _ _ => a.resolve
  | .conditional _ c y n => c.resolve >=> y.resolve >=> n.resolve
  | .call _ _ args => resolveArgs args
  | .sizeofExpr _ a => unevaluated a.resolve

/-- The identifiers of the arguments of a call. -/
def resolveArgs (args : List Expr) : Scoping → Option Scoping :=
  match args with
  | [] => some
  | a :: rest => a.resolve >=> resolveArgs rest

end

mutual

/-- The identifiers of what sets a variable of the given type. -/
def Initializer.resolve (p : Program) (item : Initializer) (type : CType) :
    Scoping → Option Scoping :=
  match item with
  | .expr e => e.resolve
  | .list _ items =>
    match type with
    | .array .. | .struct _ =>
      match initSlots p type items.length with
      | some slots => resolveSlots p items slots
      | none => some
    | scalar => resolveFirst p items scalar

/-- The identifiers of what sets the parts of an aggregate; what is left over is dropped. -/
def resolveSlots (p : Program) (items : List Initializer) (slots : List (CType × InitStep)) :
    Scoping → Option Scoping :=
  match items, slots with
  | item :: items, (type, _) :: slots => item.resolve p type >=> resolveSlots p items slots
  | _, _ => some

/-- The identifiers of the first value of a list. -/
def resolveFirst (p : Program) (items : List Initializer) (type : CType) :
    Scoping → Option Scoping :=
  match items with
  | item :: _ => item.resolve p type
  | [] => some

end

/-- A local variable, which is in scope where its own value is written. What a static one starts with
is not evaluated. -/
def VarDecl.resolve (p : Program) (d : VarDecl) (r : Scoping) : Option Scoping :=
  let start := match d.isStatic, d.init with
    | false, some init => init.resolve p (completeArray d.type d.init)
    | _, _ => some
  start (r.declare d.name d.location)

/-- The identifiers of an expression that may be missing. -/
def resolveOptionalExpr : Option Expr → Scoping → Option Scoping
  | some e => e.resolve
  | none => some

mutual

/-- The declarations and identifiers of a statement. -/
def Stmt.resolve (p : Program) (s : Stmt) : Scoping → Option Scoping :=
  match s with
  | .empty _ | .break _ | .continue _ | .goto .. | .label .. => some
  | .expr _ e => e.resolve
  | .decl _ decls => fun r => decls.foldlM (fun r d => d.resolve p r) r
  | .block _ body => enclosed (resolveStmts p body)
  | .ifThen _ c yes no => c.resolve >=> yes.resolve p >=> resolveOptional p no
  | .whileDo _ c body => c.resolve >=> body.resolve p
  | .doWhile _ body c => body.resolve p >=> c.resolve
  | .forDo _ init c step body =>
    enclosed (resolveOptional p init >=> resolveOptionalExpr c >=> body.resolve p >=>
      resolveOptionalExpr step)
  | .switch _ c cases => c.resolve >=> resolveCases p cases
  | .return _ value => resolveOptionalExpr value

/-- The declarations and identifiers of statements one after the other. -/
def resolveStmts (p : Program) (body : List Stmt) : Scoping → Option Scoping :=
  match body with
  | [] => some
  | s :: rest => s.resolve p >=> resolveStmts p rest

/-- The declarations and identifiers of a statement that may be missing. -/
def resolveOptional (p : Program) (s : Option Stmt) : Scoping → Option Scoping :=
  match s with
  | some s => s.resolve p
  | none => some

/-- The declarations and identifiers of the cases of a switch. -/
def resolveCases (p : Program) (cases : List (Location × Option Expr × List Stmt)) :
    Scoping → Option Scoping :=
  match cases with
  | [] => some
  | (_, _, body) :: rest => resolveStmts p body >=> resolveCases p rest

end

/-- The parameters and the body of a function, in a scope of their own. -/
def FunctionDecl.resolve (p : Program) (d : FunctionDecl) (body : List Stmt) :
    Scoping → Option Scoping :=
  enclosed fun r =>
    resolveStmts p body (d.params.foldl (fun r x => r.declare (x.name.getD "") x.location) r)

/-- A global variable, which may be declared more than once. -/
def VarDecl.announce (d : VarDecl) (r : Scoping) : Scoping :=
  if (r.names.lookup d.name).isSome then r else r.declare d.name d.location

/-- What is known of names at the end of a text: all global variables are declared first, then the
bodies of the functions are read. -/
def SourceUnit.resolve (p : Program) (u : SourceUnit) : Option Scoping :=
  let announce (r : Scoping) (item : Item) : Scoping :=
    match item with
    | .global d => d.announce r
    | _ => r
  let globals := u.items.foldl announce {}
  u.functions.foldlM (fun r d => match d.body with
    | some body => d.resolve p body r
    | none => some r) globals

/-! ### Names that a statement leaves behind -/

mutual

/-- The names that a statement declares for what comes after it: those of a declaration, also where
it stands as a branch or the body of a loop, or in the cases of a switch. -/
def Stmt.exposed (s : Stmt) : List String :=
  match s with
  | .decl _ decls => decls.map (·.name)
  | .ifThen _ _ yes no => yes.exposed ++ exposedByOptional no
  | .whileDo _ _ body | .doWhile _ body _ => body.exposed
  | .switch _ _ cases => exposedByCases cases
  | _ => []

/-- The names that statements declare for what comes after them. -/
def exposedBy (body : List Stmt) : List String :=
  match body with
  | [] => []
  | s :: rest => s.exposed ++ exposedBy rest

/-- The names that a statement that may be missing declares for what comes after it. -/
def exposedByOptional (s : Option Stmt) : List String :=
  match s with
  | some s => s.exposed
  | none => []

/-- The names that the cases of a switch declare for what comes after it. -/
def exposedByCases (cases : List (Location × Option Expr × List Stmt)) : List String :=
  match cases with
  | [] => []
  | (_, _, body) :: rest => exposedBy body ++ exposedByCases rest

end

namespace Scoping

variable {r r' r'' : Scoping} {xs ys : List String} {f g : Scoping → Option Scoping} {name : String}
  {v : VarId}

/-- Of the variables declared on the way, those of the given names are in scope, each the newest of
its name, and the names from before are still there behind them. -/
structure Exposes (xs : List String) (r r' : Scoping) : Prop where
  names : ∃ added : Names, r'.names = added ++ r.names ∧ added.map Prod.fst = xs.reverse ∧
    ∀ x ∈ added, r.declared.length ≤ x.2.index ∧ (r'.declared[x.2.index]?).map Prod.fst = some x.1
  declared : ∃ more, r'.declared = r.declared ++ more
  uses : ∃ more, r'.uses = r.uses ++ more

theorem Exposes.refl (r : Scoping) : Exposes [] r r :=
  ⟨⟨[], rfl, rfl, fun _ hx => nomatch hx⟩, ⟨[], (append_nil _).symm⟩, ⟨[], (append_nil _).symm⟩⟩

theorem Exposes.trans (h : Exposes xs r r') (h' : Exposes ys r' r'') : Exposes (xs ++ ys) r r'' := by
  obtain ⟨added, hadded, hxs, hnew⟩ := h.names
  obtain ⟨added', hadded', hys, hnew'⟩ := h'.names
  obtain ⟨more, hmore⟩ := h.declared
  obtain ⟨more', hmore'⟩ := h'.declared
  obtain ⟨uses, huses⟩ := h.uses
  obtain ⟨uses', huses'⟩ := h'.uses
  refine ⟨⟨added' ++ added, by rw [hadded', hadded, append_assoc], ?_, fun x hx => ?_⟩,
    ⟨more ++ more', by rw [hmore', hmore, append_assoc]⟩,
    ⟨uses ++ uses', by rw [huses', huses, append_assoc]⟩⟩
  · rw [map_append, hxs, hys, reverse_append]
  rcases mem_append.1 hx with hx | hx
  · obtain ⟨hle, hname⟩ := hnew' x hx
    refine ⟨le_trans ?_ hle, hname⟩
    rw [hmore, length_append]
    exact Nat.le_add_right _ _
  · obtain ⟨hle, hname⟩ := hnew x hx
    refine ⟨hle, ?_⟩
    obtain ⟨y, hy, hyx⟩ := map_eq_some_iff.1 hname
    obtain ⟨hlt, rfl⟩ := List.getElem?_eq_some_iff.1 hy
    rw [hmore', getElem?_append_left hlt, getElem?_eq_getElem hlt, map_some, hyx]

theorem exposes_declare (name : String) (l : Location) (r : Scoping) :
    Exposes [name] r (r.declare name l) := by
  refine ⟨⟨[(name, ⟨r.declared.length⟩)], rfl, rfl, fun x hx => ?_⟩, ⟨_, rfl⟩,
    ⟨[], (append_nil _).symm⟩⟩
  cases mem_singleton.1 hx
  exact ⟨le_rfl, by simp [declare]⟩

theorem exposes_use (h : r.use? name = some r') : Exposes [] r r' := by
  obtain ⟨v, hv, rfl⟩ := map_eq_some_iff.1 h
  exact ⟨⟨[], rfl, rfl, fun _ hx => nomatch hx⟩, ⟨[], (append_nil _).symm⟩, ⟨[v], rfl⟩⟩

theorem exposes_enclosed (hf : ∀ {r r'}, f r = some r' → ∃ xs, Exposes xs r r')
    (h : enclosed f r = some r') : Exposes [] r r' := by
  obtain ⟨r1, hr1, rfl⟩ := map_eq_some_iff.1 h
  obtain ⟨xs, hxs⟩ := hf hr1
  exact ⟨⟨[], rfl, rfl, fun _ hx => nomatch hx⟩, hxs.declared, hxs.uses⟩

theorem exposes_unevaluated (h : unevaluated f r = some r') : Exposes [] r r' := by
  obtain ⟨r1, -, rfl⟩ := map_eq_some_iff.1 h
  exact .refl r

theorem exposes_some (h : some r = some r') : Exposes [] r r' := some.inj h ▸ .refl r

theorem exposes_then (hf : ∀ {r r'}, f r = some r' → Exposes xs r r')
    (hg : ∀ {r r'}, g r = some r' → Exposes ys r r') (h : (f >=> g) r = some r') :
    Exposes (xs ++ ys) r r' := by
  obtain ⟨r1, hr1, hr'⟩ := bind_eq_some_iff.1 h
  exact (hf hr1).trans (hg hr')

/-- A name that is not exposed stands for what it stood for. -/
theorem Exposes.lookup_of_notMem (h : Exposes xs r r') (hname : name ∉ xs) :
    r'.names.lookup name = r.names.lookup name := by
  obtain ⟨added, hadded, hxs, -⟩ := h.names
  have hnone : added.lookup name = none := lookup_eq_none_iff.2 fun x hx => by
    have hmem : x.1 ∈ xs.reverse := hxs ▸ mem_map_of_mem hx
    exact bne_iff_ne.2 fun heq => hname (heq ▸ mem_reverse.1 hmem)
  rw [hadded, lookup_append, hnone, none_or]

/-- An exposed name stands for a new variable of that name. -/
theorem Exposes.lookup_of_mem (h : Exposes xs r r') (hname : name ∈ xs) :
    ∃ v, r'.names.lookup name = some v ∧ r.declared.length ≤ v.index ∧
      (r'.declared[v.index]?).map Prod.fst = some name := by
  obtain ⟨added, hadded, hxs, hnew⟩ := h.names
  cases hlookup : added.lookup name with
  | none =>
    have hmem : name ∈ added.map Prod.fst := hxs ▸ mem_reverse.2 hname
    obtain ⟨x, hx, rfl⟩ := mem_map.1 hmem
    exact absurd rfl (bne_iff_ne.1 (lookup_eq_none_iff.1 hlookup x hx))
  | some v =>
    obtain ⟨front, back, rfl, -⟩ := lookup_eq_some_iff.1 hlookup
    obtain ⟨hle, hdecl⟩ := hnew (name, v) (mem_append_right _ mem_cons_self)
    exact ⟨v, by rw [hadded, lookup_append, hlookup, some_or], hle, hdecl⟩

end Scoping

section

variable {r r' : Scoping} {p : Program}

mutual

/-- An expression declares nothing. -/
theorem Expr.exposes_resolve (e : Expr) {r r' : Scoping} (h : e.resolve r = some r') :
    Exposes [] r r' := by
  unfold Expr.resolve at h
  match e with
  | .int .. | .char .. | .string .. | .null _ | .sizeofType .. => exact exposes_some h
  | .ident _ name => exact exposes_use h
  | .binary _ _ a b | .logical _ _ a b | .assign _ _ a b | .index _ a b =>
    exact exposes_then a.exposes_resolve b.exposes_resolve h
  | .unary _ _ a | .cast _ _ a | .member _ a _ _ => exact a.exposes_resolve h
  | .conditional _ c y n =>
    exact exposes_then c.exposes_resolve (exposes_then y.exposes_resolve n.exposes_resolve) h
  | .call _ _ args => exact exposes_resolveArgs args h
  | .sizeofExpr _ a => exact exposes_unevaluated h

theorem exposes_resolveArgs (args : List Expr) {r r' : Scoping} (h : resolveArgs args r = some r') :
    Exposes [] r r' := by
  unfold resolveArgs at h
  match args with
  | [] => exact exposes_some h
  | a :: rest => exact exposes_then a.exposes_resolve (exposes_resolveArgs rest) h

end

mutual

/-- What sets a variable declares nothing. -/
theorem Initializer.exposes_resolve (item : Initializer) (type : CType) {r r' : Scoping}
    (h : item.resolve p type r = some r') : Exposes [] r r' := by
  unfold Initializer.resolve at h
  match item with
  | .expr e => exact e.exposes_resolve h
  | .list _ items =>
    have hslots (slots : Option (List (CType × InitStep))) (h : (match slots with
        | some slots => resolveSlots p items slots
        | none => some) r = some r') : Exposes [] r r' := by
      cases slots with
      | some slots => exact exposes_resolveSlots items slots h
      | none => exact exposes_some h
    cases type with
    | array element size => exact hslots (initSlots p (.array element size) items.length) h
    | struct name => exact hslots (initSlots p (.struct name) items.length) h
    | _ => exact exposes_resolveFirst items _ h

theorem exposes_resolveSlots (items : List Initializer) (slots : List (CType × InitStep))
    {r r' : Scoping} (h : resolveSlots p items slots r = some r') : Exposes [] r r' := by
  unfold resolveSlots at h
  match items, slots with
  | item :: items, (type, _) :: slots =>
    exact exposes_then (item.exposes_resolve type) (exposes_resolveSlots items slots) h
  | [], _ | _ :: _, [] => exact exposes_some h

theorem exposes_resolveFirst (items : List Initializer) (type : CType) {r r' : Scoping}
    (h : resolveFirst p items type r = some r') : Exposes [] r r' := by
  unfold resolveFirst at h
  match items with
  | item :: _ => exact item.exposes_resolve type h
  | [] => exact exposes_some h

end

theorem VarDecl.exposes_resolve (d : VarDecl) (h : d.resolve p r = some r') :
    Exposes [d.name] r r' := by
  have hdeclare := exposes_declare d.name d.location r
  unfold VarDecl.resolve at h
  cases hstatic : d.isStatic with
  | true =>
    rw [hstatic] at h
    cases h
    exact hdeclare
  | false =>
    rw [hstatic] at h
    cases hinit : d.init with
    | none =>
      rw [hinit] at h
      cases h
      exact hdeclare
    | some init =>
      rw [hinit] at h
      exact hdeclare.trans (init.exposes_resolve _ h)

theorem exposes_resolveDecls (ds : List VarDecl)
    (h : ds.foldlM (fun r d => d.resolve p r) r = some r') : Exposes (ds.map (·.name)) r r' := by
  induction ds generalizing r with
  | nil => exact exposes_some h
  | cons d ds ih =>
    obtain ⟨r1, hr1, hr'⟩ := bind_eq_some_iff.1 h
    exact (d.exposes_resolve hr1).trans (ih hr')

theorem exposes_resolveOptionalExpr (e : Option Expr) (h : resolveOptionalExpr e r = some r') :
    Exposes [] r r' := by
  cases e with
  | some e => exact e.exposes_resolve h
  | none => exact exposes_some h

mutual

/-- **A statement changes the names in scope** by exactly those that it exposes. -/
theorem Stmt.exposes_resolve (s : Stmt) {r r' : Scoping} (h : s.resolve p r = some r') :
    Exposes s.exposed r r' := by
  unfold Stmt.resolve at h
  unfold Stmt.exposed
  match s with
  | .empty _ | .break _ | .continue _ | .goto .. | .label .. => exact exposes_some h
  | .expr _ e => exact e.exposes_resolve h
  | .decl _ decls => exact exposes_resolveDecls decls h
  | .block _ body => exact exposes_enclosed (fun h => ⟨_, exposes_resolveStmts body h⟩) h
  | .ifThen _ c yes no =>
    show Exposes ([] ++ (yes.exposed ++ exposedByOptional no)) r r'
    exact exposes_then c.exposes_resolve
      (exposes_then yes.exposes_resolve (exposes_resolveOptional no)) h
  | .whileDo _ c body => exact exposes_then c.exposes_resolve body.exposes_resolve h
  | .doWhile _ body c =>
    have hboth : Exposes (body.exposed ++ []) r r' :=
      exposes_then body.exposes_resolve c.exposes_resolve h
    rwa [append_nil] at hboth
  | .forDo _ init c step body =>
    refine exposes_enclosed (fun {r r'} h => ⟨exposedByOptional init ++ ([] ++ (body.exposed ++ [])),
      exposes_then (exposes_resolveOptional init) ?_ h⟩) h
    exact exposes_then (exposes_resolveOptionalExpr c)
      (exposes_then body.exposes_resolve (exposes_resolveOptionalExpr step))
  | .switch _ c cases => exact exposes_then c.exposes_resolve (exposes_resolveCases cases) h
  | .return _ value => exact exposes_resolveOptionalExpr value h

theorem exposes_resolveStmts (body : List Stmt) {r r' : Scoping}
    (h : resolveStmts p body r = some r') : Exposes (exposedBy body) r r' := by
  unfold resolveStmts at h
  unfold exposedBy
  match body with
  | [] => exact exposes_some h
  | s :: rest => exact exposes_then s.exposes_resolve (exposes_resolveStmts rest) h

theorem exposes_resolveOptional (s : Option Stmt) {r r' : Scoping}
    (h : resolveOptional p s r = some r') : Exposes (exposedByOptional s) r r' := by
  unfold resolveOptional at h
  unfold exposedByOptional
  match s with
  | some s => exact s.exposes_resolve h
  | none => exact exposes_some h

theorem exposes_resolveCases (cases : List (Location × Option Expr × List Stmt)) {r r' : Scoping}
    (h : resolveCases p cases r = some r') : Exposes (exposedByCases cases) r r' := by
  unfold resolveCases at h
  unfold exposedByCases
  match cases with
  | [] => exact exposes_some h
  | (_, _, body) :: rest => exact exposes_then (exposes_resolveStmts body) (exposes_resolveCases rest) h

end

end

end PathScout

import PathScout.Checker.Verdict

/-!
# Allocated memory

Memory that a program allocates is followed from the call that allocates it to the call that
releases it. Memory that others may hold has escaped and is no longer missed.

* Releasing memory twice, releasing what was not allocated, using released memory, and losing the
  last pointer to allocated memory are defects.
* `evalCall?`: what the functions that allocate and release memory do.
* `check`: looks at calls, accesses, writes, and at symbols that nothing leads to any more.
-/

namespace PathScout.Allocation

/-- Memory is released twice. -/
def doubleFreeType : BugType := ⟨"Double free", "Memory error"⟩

/-- Released memory is used. -/
def useAfterFreeType : BugType := ⟨"Use-after-free", "Memory error"⟩

/-- Something else than allocated memory is released. -/
def badFreeType : BugType := ⟨"Bad free", "Memory error"⟩

/-- Allocated memory is lost. -/
def leakType : BugType := ⟨"Memory leak", "Memory error"⟩

/-- The symbol whose memory a value points into. -/
def trackedSymbol? (c : Catalog) (v : Value) : Option SymbolId := v.region?.bind c.symbolicBase?

/-- The symbol whose released memory a value points into. -/
def releasedSymbol? (c : Catalog) (s : State) (v : Value) : Option SymbolId :=
  (trackedSymbol? c v).filter fun sym => (s.heap.get? sym).any fun a => a.kind == .released

/-- A finding about the memory of a symbol. -/
def findingOn (type : BugType) (description : String) (sym : SymbolId) (span : Span) : Finding where
  type := type
  description := description
  location := span.first
  spans := [span]
  allocation := some sym

/-- The span of an argument. -/
def argSpan (c : Catalog) (call : CallEvent) (i : Nat) : Span :=
  match call.argExprs[i]? with
  | some e => (c.program.expr e).span
  | none => .point .nowhere

/-! ### Calls that allocate and release -/

/-- Allocates memory on the heap, which may be filled with zeros. -/
def allocate (s : Scene) (call : CallEvent) (zeroed : Bool) : Naming Verdict := do
  let type ← Naming.query fun c => (c.program.expr call.expr).type
  let sym ← Naming.symbol (.conjured call.expr call.frame type s.visits none)
  let region ← Naming.symbolicHeap sym
  let state := s.state.bindExpr call.frame call.expr (.pointer region)
  let state := if zeroed then state.bindDefault s.policy region (.int 0) else state
  return .proceed (state.setAllocation sym ⟨.allocated, call.expr⟩)

/-- Allocates memory on the stack. -/
def allocateOnStack (s : Scene) (call : CallEvent) : Naming Verdict := do
  let region ← Naming.alloca call.expr s.visits call.frame
  return .proceed (s.state.bindExpr call.frame call.expr (.pointer region))

/-- An object that was not allocated, in words. -/
def describeOther (c : Catalog) : Region → String
  | .var v _ =>
    let var := c.program.var v
    let kind := match var.kind with
      | .param _ => "parameter"
      | .local => "local variable"
      | .staticLocal => "static variable"
      | .global _ => "global variable"
    "the address of the " ++ kind ++ " '" ++ var.name ++ "'"
  | .string .. => "a string literal"
  | .alloca .. => "memory allocated by alloca()"
  | _ => "a pointer"

/-- Releases memory. Null may be released, and what is unknown is let pass. -/
def release (s : Scene) (c : Catalog) (call : CallEvent) : Verdict :=
  match call.args.head? with
  | none => .pass
  | some argument =>
    if argument.isUnknown || argument.isUndefined || s.state.zero? c argument == some true then
      .pass
    else
      match argument.region? with
      | none => .pass
      | some r =>
        let span := argSpan c call 0
        match c.region (c.base r) with
        | .symbolic sym _ =>
          match s.state.heap.get? sym with
          | some ⟨.released, _⟩ =>
            .stop s.state
              [findingOn doubleFreeType "Attempt to free released memory" sym span]
          | some ⟨_, origin⟩ => .proceed (s.state.setAllocation sym ⟨.released, origin⟩)
          | none => .proceed (s.state.setAllocation sym ⟨.released, call.expr⟩)
        | other =>
          .stop s.state [{
            type := badFreeType
            description := "Argument to free() is " ++ describeOther c other ++
              ", which is not memory allocated by malloc()"
            location := span.first
            spans := [span] }]

/-- What a call does, if it is one that allocates or releases memory. -/
def evalCall? (s : Scene) (call : CallEvent) : Naming (Option Verdict) := do
  match call.name with
  | "malloc" => return some (← allocate s call false)
  | "calloc" => return some (← allocate s call true)
  | "free" => return some (← Naming.query fun c => release s c call)
  | "alloca" => return some (← allocateOnStack s call)
  | _ => return none

/-! ### Memory that others may hold -/

/-- Notes that others may hold the memory of a symbol. -/
def escapeSymbol (s : State) (sym : SymbolId) : State :=
  match s.heap.get? sym with
  | some ⟨.allocated, origin⟩ => s.setAllocation sym ⟨.escaped, origin⟩
  | _ => s

/-- Notes that others may hold the memory that a value points into. -/
def escapeValue (c : Catalog) (s : State) (v : Value) : State :=
  match trackedSymbol? c v with
  | some sym => escapeSymbol s sym
  | none => s

/-- What an unknown function was given, or could reach, may be held by it. -/
def escapeCall (c : Catalog) (s : State) (call : CallEvent) : State :=
  call.invalidated.foldl escapeSymbol (call.args.foldl (escapeValue c) s)

/-! ### Uses and losses -/

/-- Ends the path if a value points into released memory. -/
def checkUse (s : Scene) (c : Catalog) (v : Value) (span : Span) : Option Verdict :=
  (releasedSymbol? c s.state v).map fun sym =>
    .stop s.state [findingOn useAfterFreeType "Use of memory after it is freed" sym span]

/-- Looks at the arguments of a call. -/
def checkArgs (s : Scene) (c : Catalog) (call : CallEvent) : Verdict :=
  if call.name = "free" then .pass
  else
    (call.args.zipIdx.findSome? fun (v, i) => checkUse s c v (argSpan c call i)).getD .pass

/-- The allocations that nothing leads to any more, in order. -/
def deadAllocations (s : State) (c : Catalog) (marks : Marks) : List (SymbolId × Allocation) :=
  s.heap.entries.filter fun e => !marks.isLiveSymbol c e.1

/-- Is the memory of a dead symbol lost? An allocation that failed is not. -/
def isLeak (s : State) (e : SymbolId × Allocation) : Naming Bool := do
  if e.2.kind = .allocated then
    let region ← Naming.symbolicHeap e.1
    Naming.query fun c => (s.assume c (.pointer region) true).isSome
  else return false

/-- The finding of lost memory, where it was allocated. -/
def leak (p : Program) (e : SymbolId × Allocation) : Finding where
  type := leakType
  description := "Potential memory leak"
  location := (p.expr e.2.origin).location
  allocation := some e.1

/-- Forgets the memory of dead symbols, and tells which of it is lost. -/
def checkDead (s : Scene) (marks : Marks) : Naming Verdict := do
  let dead ← Naming.query fun c => deadAllocations s.state c marks
  let leaks ← dead.filterM (isLeak s.state)
  let state := dead.foldl (fun s e => s.dropAllocation e.1) s.state
  if leaks.isEmpty then return .proceed state
  else
    let program ← Naming.query (·.program)
    return .report state (leaks.map (leak program))

/-- Looks at calls, accesses, writes and dead symbols. -/
def check (event : Event) (s : Scene) : Naming Verdict := do
  match event with
  | .callBegins call => Naming.query fun c => checkArgs s c call
  | .callEnds call =>
    if call.conservative then Naming.query fun c => .proceed (escapeCall c s.state call)
    else return .pass
  | .access location place =>
    Naming.query fun c => (checkUse s c location (c.program.expr place).span).getD .pass
  | .write location value _ =>
    match location.region? with
    | none => return .pass
    | some r =>
      Naming.query fun c =>
        if c.hasStackStorage r then .pass else .proceed (escapeValue c s.state value)
  | .dead marks => checkDead s marks
  | _ => return .pass

end PathScout.Allocation

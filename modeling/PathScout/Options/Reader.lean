import PathScout.Options
import PathScout.Text.Json

/-!
# Reading options

Options are a JSON object with a member for each option that is not the standard one, or an array
of the first of them in order. Members that are no options are passed over; an option that is
given twice is an error.

* `Settings.ofJson?`: the options that a JSON value says.
* `Options.ofJson`, `Options.ofText`: the same, and checked.
-/

namespace PathScout

namespace JsonValue

/-- A number that is not negative and below a bound. -/
def natBelow? (bound : Nat) : JsonValue → Option Nat
  | int n => if 0 ≤ n ∧ n < bound then some n.toNat else none
  | _ => none

/-- A truth value. -/
def bool? : JsonValue → Option Bool
  | bool b => some b
  | _ => none

/-- A text. -/
def text? : JsonValue → Option String
  | string s => s
  | _ => none

/-- A list of texts. -/
def texts? : JsonValue → Option (List String)
  | array xs => xs.mapM text?
  | _ => none

/-- A word, given as a string or as the only member of an object, with nothing to it. -/
def word? : JsonValue → Option String
  | string s => s
  | object [(key, null)] => key
  | _ => none

/-- One of some choices, by its word. -/
def choice? {α : Type} (choices : List α) (word : α → String) (j : JsonValue) : Option α := do
  let w ← j.word?
  choices.find? fun a => word a == w

end JsonValue

namespace Settings

/-- An option: its name, and how its value changes the options. -/
structure Field where
  name : String
  set : JsonValue → Settings String → Option (Settings String)

/-- The bound of numbers of 32 bits. -/
def bound32 : Nat := 0x100000000

/-- The bound of numbers of 64 bits. -/
def bound64 : Nat := 0x10000000000000000

/-- The options in order. -/
def fields : List Field := [
  ⟨"max_block_visits", fun j s => do return { s with maxBlockVisits := ← j.natBelow? bound32 }⟩,
  ⟨"max_nodes", fun j s => do return { s with maxNodes := ← j.natBelow? bound64 }⟩,
  ⟨"timeout_ms", fun j s =>
    match j with
    | .null => some { s with timeout := none }
    | j => do return { s with timeout := some (← j.natBelow? bound64) }⟩,
  ⟨"loop_exhaustion", fun j s => do
    return { s with loopExhaustion := ← j.choice? [.sink, .widen] LoopExhaustion.word }⟩,
  ⟨"worklist", fun j s => do
    return { s with searchOrder := ← j.choice? [.depthFirst, .breadthFirst] SearchOrder.word }⟩,
  ⟨"path_scheme", fun j s => do
    return { s with pathScheme := ← j.choice? [.minimal, .extensive] PathScheme.word }⟩,
  ⟨"inline_calls", fun j s => do return { s with inlineCalls := ← j.bool? }⟩,
  ⟨"max_inline_depth", fun j s => do return { s with maxInlineDepth := ← j.natBelow? bound32 }⟩,
  ⟨"store", fun j s => do
    return { s with store := ← j.choice? [.region, .flat] StorePolicy.name }⟩,
  ⟨"invalidate_globals_on_call", fun j s => do return { s with invalidateGlobals := ← j.bool? }⟩,
  ⟨"parallel", fun j s => do return { s with parallel := ← j.bool? }⟩,
  ⟨"checkers", fun j s => do return { s with checkers := ← j.texts? }⟩]

/-- Sets the options that values are given for, in order. There must not be more values. -/
def setInOrder : List Field → List JsonValue → Settings String → Option (Settings String)
  | _, [], s => some s
  | [], _ :: _, _ => none
  | field :: fields, j :: js, s => do setInOrder fields js (← field.set j s)

/-- Sets the options that members name, each at most once. -/
def setByName (seen : List String) :
    List (Option String × JsonValue) → Settings String → Option (Settings String)
  | [], s => some s
  | (key, j) :: rest, s => do
    let key ← key
    match fields.find? fun field => field.name == key with
    | none => setByName seen rest s
    | some field =>
      if seen.contains key then none
      else setByName (key :: seen) rest (← field.set j s)

/-- The options that a JSON value says. -/
def ofJson? : JsonValue → Option (Settings String)
  | .array xs => setInOrder fields xs standard
  | .object members => setByName [] members standard
  | _ => none

end Settings

namespace Options

/-- The options that a JSON value says, checked. -/
def ofJson (j : JsonValue) : Except OptionsError Options :=
  match Settings.ofJson? j with
  | some s => s.validate
  | none => .error .malformed

/-- The options that a text says, checked. -/
def ofText (s : String) : Except OptionsError Options :=
  match JsonValue.ofText? s with
  | some j => ofJson j
  | none => .error .malformed

end Options

end PathScout

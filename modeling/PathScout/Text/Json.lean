/-!
# JSON texts

* `JsonValue`: what a JSON text says. Numbers are told apart only by whether they are written as
  integers, and a string that is no Unicode text has no content.
* `JsonValue.ofText?`: reads a text that holds one value and nothing else.
-/

namespace PathScout

/-- What a JSON text says. -/
inductive JsonValue where
  | null
  | bool (value : Bool)
  | int (value : Int)
  | fraction
  | string (text : Option String)
  | array (elements : List JsonValue)
  | object (members : List (Option String × JsonValue))
deriving Inhabited

namespace JsonValue

/-- Without the blanks at the start. -/
def skipBlank (cs : List Char) : List Char :=
  cs.dropWhile fun c => c == ' ' || c == '\n' || c == '\t' || c == '\r'

/-- The rest after a word. -/
def dropWord? : List Char → List Char → Option (List Char)
  | [], cs => some cs
  | w :: ws, c :: cs => if w = c then dropWord? ws cs else none
  | _ :: _, [] => none

/-! ### Numbers -/

/-- At least one digit, and what follows the digits. -/
def digits? (cs : List Char) : Option (List Char × List Char) :=
  match cs.takeWhile Char.isDigit with
  | [] => none
  | ds => some (ds, cs.dropWhile Char.isDigit)

/-- The number that digits stand for. -/
def natOfDigits (ds : List Char) : Nat := ds.foldl (fun n d => 10 * n + (d.toNat - '0'.toNat)) 0

/-- After the fraction of a number, if there is one. -/
def skipFraction? : List Char → Option (List Char)
  | '.' :: cs => (digits? cs).map (·.2)
  | cs => some cs

/-- After the exponent of a number, if there is one. -/
def skipExponent? (cs : List Char) : Option (List Char) :=
  match cs with
  | 'e' :: rest | 'E' :: rest =>
    match rest with
    | '+' :: rest | '-' :: rest => (digits? rest).map (·.2)
    | rest => (digits? rest).map (·.2)
  | cs => some cs

/-- A number behind its sign. A number with more than one digit does not start with zero, and zero
with a sign is no integer. -/
def number? (negative : Bool) (cs : List Char) : Option (JsonValue × List Char) := do
  let (ds, rest) ← digits? cs
  if 1 < ds.length ∧ ds.head? = some '0' then none
  let after ← skipExponent? (← skipFraction? rest)
  let n : Nat := natOfDigits ds
  let value : JsonValue :=
    if after.length < rest.length ∨ (negative ∧ n = 0) then .fraction
    else .int (if negative then -n else n)
  return (value, after)

/-! ### Strings -/

/-- The value of a hexadecimal digit. -/
def hexDigit? (c : Char) : Option Nat :=
  if c.isDigit then some (c.toNat - '0'.toNat)
  else if 'a' ≤ c ∧ c ≤ 'f' then some (c.toNat - 'a'.toNat + 10)
  else if 'A' ≤ c ∧ c ≤ 'F' then some (c.toNat - 'A'.toNat + 10)
  else none

/-- The value of four hexadecimal digits. -/
def hex4? (a b c d : Char) : Option Nat := do
  return ((← hexDigit? a) * 16 + (← hexDigit? b)) * 256 + (← hexDigit? c) * 16 + (← hexDigit? d)

/-- The character that stands for itself or something else behind a backslash. -/
def simpleEscape? : Char → Option Nat
  | '"' => some 0x22
  | '\\' => some 0x5c
  | '/' => some 0x2f
  | 'b' => some 0x08
  | 'f' => some 0x0c
  | 'n' => some 0x0a
  | 'r' => some 0x0d
  | 't' => some 0x09
  | _ => none

/-- The code points of a string up to its closing quote. An escape may name half a character. -/
def codes? : List Char → Option (List Nat × List Char)
  | [] => none
  | '"' :: rest => some ([], rest)
  | '\\' :: 'u' :: a :: b :: c :: d :: rest => do
    let n ← hex4? a b c d
    let (ns, rest) ← codes? rest
    return (n :: ns, rest)
  | '\\' :: c :: rest => do
    let n ← simpleEscape? c
    let (ns, rest) ← codes? rest
    return (n :: ns, rest)
  | c :: rest => do
    if c = '\\' ∨ c.toNat < 0x20 then none
    let (ns, rest) ← codes? rest
    return (c.toNat :: ns, rest)

/-- Is the code the first half of a character? -/
def isHighHalf (n : Nat) : Bool := 0xd800 ≤ n && n ≤ 0xdbff

/-- Is the code the second half of a character? -/
def isLowHalf (n : Nat) : Bool := 0xdc00 ≤ n && n ≤ 0xdfff

/-- The characters that codes stand for. Halves must come in pairs. -/
def chars? : List Nat → Option (List Char)
  | [] => some []
  | [n] => if isHighHalf n || isLowHalf n then none else some [Char.ofNat n]
  | n :: m :: rest =>
    if isHighHalf n then
      if isLowHalf m then
        (Char.ofNat (0x10000 + (n - 0xd800) * 0x400 + (m - 0xdc00)) :: ·) <$> chars? rest
      else none
    else if isLowHalf n then none
    else (Char.ofNat n :: ·) <$> chars? (m :: rest)

/-- A string behind its opening quote. -/
def string? (cs : List Char) : Option (Option String × List Char) :=
  (codes? cs).map fun (ns, rest) => ((chars? ns).map String.ofList, rest)

/-! ### Values -/

mutual

/-- A value, with at most `n` values and parts of values in it. -/
def value? : (n : Nat) → List Char → Option (JsonValue × List Char)
  | 0, _ => none
  | n + 1, cs =>
    match skipBlank cs with
    | 'n' :: cs => (dropWord? "ull".toList cs).map (null, ·)
    | 't' :: cs => (dropWord? "rue".toList cs).map (bool true, ·)
    | 'f' :: cs => (dropWord? "alse".toList cs).map (bool false, ·)
    | '-' :: cs => number? true cs
    | '"' :: cs => (string? cs).map fun (s, rest) => (string s, rest)
    | '[' :: cs =>
      match skipBlank cs with
      | ']' :: rest => some (array [], rest)
      | cs => (elements? n cs).map fun (xs, rest) => (array xs, rest)
    | '\x7b' :: cs =>
      match skipBlank cs with
      | '\x7d' :: rest => some (object [], rest)
      | cs => (members? n cs).map fun (xs, rest) => (object xs, rest)
    | cs => number? false cs

/-- The elements of an array up to its end; there is at least one. -/
def elements? : (n : Nat) → List Char → Option (List JsonValue × List Char)
  | 0, _ => none
  | n + 1, cs => do
    let (x, rest) ← value? n cs
    match skipBlank rest with
    | ',' :: rest =>
      let (xs, rest) ← elements? n rest
      return (x :: xs, rest)
    | ']' :: rest => return ([x], rest)
    | _ => none

/-- The members of an object up to its end; there is at least one. -/
def members? : (n : Nat) → List Char → Option (List (Option String × JsonValue) × List Char)
  | 0, _ => none
  | n + 1, cs => do
    match skipBlank cs with
    | '"' :: cs =>
      let (key, rest) ← string? cs
      match skipBlank rest with
      | ':' :: rest =>
        let (x, rest) ← value? n rest
        match skipBlank rest with
        | ',' :: rest =>
          let (xs, rest) ← members? n rest
          return ((key, x) :: xs, rest)
        | '\x7d' :: rest => return ([(key, x)], rest)
        | _ => none
      | _ => none
    | _ => none

end

/-- The value that a text holds, if it holds nothing else. Every value and every part of one takes
at least one character, which bounds their number. -/
def ofText? (s : String) : Option JsonValue := do
  let (x, rest) ← value? (2 * s.length + 1) s.toList
  if (skipBlank rest).isEmpty then some x else none

end JsonValue

end PathScout

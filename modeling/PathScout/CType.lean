/-!
# Types of the C subset

* `CType`: `void`, the two integer types, pointers, arrays with or without a size, and structures
  by name.
* `CType.text`, `CType.ofText?`: how a type is written, and its reading. A suffix applies to the
  whole text before it.
-/

namespace PathScout

/-- A type of the C subset. A structure is known by its name. -/
inductive CType where
  | void
  | char
  | int
  | pointer (pointee : CType)
  | array (element : CType) (size : Option Nat)
  | struct (name : String)
deriving DecidableEq, Hashable, Inhabited

namespace CType

def isVoid : CType → Bool
  | void => true
  | _ => false

def isInteger : CType → Bool
  | int | char => true
  | _ => false

def isPointer : CType → Bool
  | pointer _ => true
  | _ => false

def isArray : CType → Bool
  | array .. => true
  | _ => false

def isStruct : CType → Bool
  | struct _ => true
  | _ => false

/-- Scalars are the integers and the pointers. -/
def isScalar (t : CType) : Bool := t.isInteger || t.isPointer

/-- Aggregates are the structures and the arrays. -/
def isAggregate (t : CType) : Bool := t.isStruct || t.isArray

/-- What a pointer points to. -/
def pointee? : CType → Option CType
  | pointer t => some t
  | _ => none

/-- What an array is made of. -/
def element? : CType → Option CType
  | array t _ => some t
  | _ => none

/-- The type that a value of this type has once it is passed on: arrays become pointers. -/
def decayed : CType → CType
  | array t _ => pointer t
  | t => t

/-- The number of bits of a scalar. -/
def bitWidth? : CType → Option Nat
  | char => some 8
  | int => some 32
  | pointer _ => some 64
  | _ => none

/-- How a type is written. -/
def text : CType → String
  | void => "void"
  | char => "char"
  | int => "int"
  | pointer t => t.text ++ " *"
  | array t (some n) => t.text ++ "[" ++ toString n ++ "]"
  | array t none => t.text ++ "[]"
  | struct name => "struct " ++ name

/-- The decimal number written by a list of digits. -/
def sizeOfDigits (ds : List Char) : Nat := ds.foldl (fun n d => 10 * n + (d.toNat - '0'.toNat)) 0

/-- A type without suffixes. -/
def baseOfText? (s : String) : Option CType :=
  if s = "void" then some void
  else if s = "char" then some char
  else if s = "int" then some int
  else if s.startsWith "struct " then some (struct (s.drop 7).toString)
  else none

/-- Reads a type from its characters in reverse, last suffix first. -/
def ofReversed? (cs : List Char) : Option CType :=
  match cs with
  | '*' :: ' ' :: rest => (ofReversed? rest).map pointer
  | ']' :: rest =>
    let digits := rest.takeWhile Char.isDigit
    match _h : rest.drop digits.length with
    | '[' :: inner =>
      let size := if digits.isEmpty then none else some (sizeOfDigits digits.reverse)
      (ofReversed? inner).map (array · size)
    | _ => none
  | _ => baseOfText? (String.ofList cs.reverse)
termination_by cs.length
decreasing_by
  · simp only [List.length_cons]; omega
  · have : (rest.drop digits.length).length = inner.length + 1 := by rw [_h]; rfl
    simp at this ⊢
    omega

/-- Reads a type as `text` writes it. -/
def ofText? (s : String) : Option CType := ofReversed? s.toList.reverse

end CType

end PathScout

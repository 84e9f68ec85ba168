/-!
# Arithmetic of 64-bit words with sign

Words are integers between `Word.min` and `Word.max`.

* `Word.ofInt?`: a result, if it is a word.
* `Word.wrap`: the word that agrees with an integer modulo `2 ^ 64`.
* `Word.signed`: the same for any width.
* `Word.land`, `Word.lor`, `Word.lxor`, `Word.lnot`: bitwise operations.
* `Word.shl`, `Word.shr`: shifts by less than 64 places.
-/

namespace PathScout.Word

/-- The least word. -/
def min : Int := -0x8000000000000000

/-- The greatest word. -/
def max : Int := 0x7fffffffffffffff

/-- An exact result, if it is a word. -/
def ofInt? (n : Int) : Option Int := if min ≤ n ∧ n ≤ max then some n else none

/-- The integer of a given width with sign that agrees with `n` modulo a power of two. -/
def signed (bits : Nat) (n : Int) : Int := n.bmod (Nat.pow 2 bits)

/-- The word that agrees with `n` modulo `2 ^ 64`. -/
def wrap (n : Int) : Int := signed 64 n

/-- Bitwise conjunction. -/
def land (a b : Int) : Int := (BitVec.ofInt 64 a &&& BitVec.ofInt 64 b).toInt

/-- Bitwise disjunction. -/
def lor (a b : Int) : Int := (BitVec.ofInt 64 a ||| BitVec.ofInt 64 b).toInt

/-- Bitwise exclusive disjunction. -/
def lxor (a b : Int) : Int := (BitVec.ofInt 64 a ^^^ BitVec.ofInt 64 b).toInt

/-- Bitwise complement. -/
def lnot (a : Int) : Int := -a - 1

/-- Shift to the left; bits beyond the word are lost. -/
def shl (a : Int) (places : Nat) : Int := wrap (a * Nat.pow 2 places)

/-- Shift to the right, keeping the sign. -/
def shr (a : Int) (places : Nat) : Int := a.fdiv (Nat.pow 2 places)

/-- A truth value as a number. -/
def ofBool (b : Bool) : Int := if b then 1 else 0

end PathScout.Word

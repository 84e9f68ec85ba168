import PathScout.CType
import PathScout.Operator
import PathScout.Word

/-!
# Sets of integers as ranges

A set is a list of ranges, in increasing order and apart from each other. Values are 64-bit words.

* `CType.domain`: the values of a type.
* `RangeSet.inter`, `RangeSet.compl`, `RangeSet.shift`: intersection, complement in a domain, and
  addition of a constant that wraps at the width of a type.
* `RangeSet.satisfying`: the values of a type that stand in a relation to a constant.
-/

namespace PathScout

/-- The integers from `lo` to `hi`. -/
structure Interval where
  lo : Int
  hi : Int
deriving DecidableEq, Hashable

/-- The least and the greatest value of a type. Pointers are not negative, and other types have
all words. -/
def CType.domain : CType → Interval
  | .char => ⟨-0x80, 0x7f⟩
  | .int => ⟨-0x80000000, 0x7fffffff⟩
  | .pointer _ => ⟨0, Word.max⟩
  | _ => ⟨Word.min, Word.max⟩

/-- The value of a type that a word wraps to. -/
def CType.wrap (t : CType) (n : Int) : Int :=
  match t with
  | .char => Word.signed 8 n
  | .int => Word.signed 32 n
  | _ => n

/-- A set of integers, as ranges in increasing order. -/
structure RangeSet where
  ranges : List Interval
deriving DecidableEq, Hashable

namespace RangeSet

/-- The set without members. -/
def empty : RangeSet := ⟨[]⟩

/-- The integers from `lo` to `hi`, none if these are out of order. -/
def interval (lo hi : Int) : RangeSet := if lo ≤ hi then ⟨[⟨lo, hi⟩]⟩ else empty

/-- A single integer. -/
def point (n : Int) : RangeSet := interval n n

/-- All values of a type. -/
def domain (t : CType) : RangeSet := interval t.domain.lo t.domain.hi

/-- Is the set empty? -/
def isEmpty (s : RangeSet) : Bool := s.ranges.isEmpty

/-- Is the integer a member? -/
def contains (s : RangeSet) (n : Int) : Bool := s.ranges.any fun r => r.lo ≤ n && n ≤ r.hi

/-- The only member, if there is only one. -/
def single? (s : RangeSet) : Option Int :=
  match s.ranges with
  | [r] => if r.lo = r.hi then some r.lo else none
  | _ => none

/-- The least member. -/
def min? (s : RangeSet) : Option Int := s.ranges.head?.map (·.lo)

/-- The greatest member. -/
def max? (s : RangeSet) : Option Int := s.ranges.getLast?.map (·.hi)

/-- The common parts of two lists of ranges. -/
def interRanges (as bs : List Interval) : List Interval :=
  match as, bs with
  | a :: as, b :: bs =>
    let lo := max a.lo b.lo
    let hi := min a.hi b.hi
    let rest := if a.hi < b.hi then interRanges as (b :: bs) else interRanges (a :: as) bs
    if lo ≤ hi then ⟨lo, hi⟩ :: rest else rest
  | _, _ => []
termination_by as.length + bs.length

/-- The members of both sets. -/
def inter (s t : RangeSet) : RangeSet := ⟨interRanges s.ranges t.ranges⟩

/-- The gaps between ranges, from `next` up to `hi`. -/
def gaps (next hi : Int) : List Interval → List Interval
  | [] => if next ≤ hi then [⟨next, hi⟩] else []
  | r :: rest =>
    let more := gaps (r.hi + 1) hi rest
    if next < r.lo then ⟨next, r.lo - 1⟩ :: more else more

/-- The values of a type that are not members. -/
def compl (s : RangeSet) (t : CType) : RangeSet :=
  inter ⟨gaps t.domain.lo t.domain.hi s.ranges⟩ (interval t.domain.lo t.domain.hi)

/-- A range moved by `delta`, in the numbers with sign of the given width. It falls into two
parts where it wraps. -/
def shiftInterval (bits : Nat) (delta : Int) (r : Interval) : List Interval :=
  let modulus : Int := Nat.pow 2 bits
  let least := -(modulus / 2)
  let greatest := modulus / 2 - 1
  if modulus ≤ r.hi - r.lo + 1 then [⟨least, greatest⟩]
  else
    let start := (r.lo + delta - least) % modulus + least
    let stop := start + (r.hi - r.lo)
    if greatest < stop then [⟨start, greatest⟩, ⟨least, stop - modulus⟩] else [⟨start, stop⟩]

/-- Order of ranges by their lower, then by their upper ends. -/
def startsBefore (a b : Interval) : Bool := a.lo < b.lo || (a.lo == b.lo && a.hi ≤ b.hi)

/-- Joins ranges that meet or overlap; `last` is the one before them. -/
def joinAfter (last : Interval) : List Interval → List Interval
  | [] => [last]
  | r :: rest =>
    if r.lo ≤ last.hi + 1 then joinAfter ⟨last.lo, max last.hi r.hi⟩ rest
    else last :: joinAfter r rest

/-- Joins ranges that meet or overlap. -/
def join : List Interval → List Interval
  | [] => []
  | r :: rest => joinAfter r rest

/-- The part of a range between two bounds. -/
def clip (bounds r : Interval) : Option Interval :=
  let lo := max r.lo bounds.lo
  let hi := min r.hi bounds.hi
  if lo ≤ hi then some ⟨lo, hi⟩ else none

/-- The members plus `delta`, wrapped at the width of a type, as far as they are values of it. -/
def shift (s : RangeSet) (delta : Int) (t : CType) : RangeSet :=
  let pieces := s.ranges.flatMap (shiftInterval (t.bitWidth?.getD 64) delta)
  ⟨join ((pieces.mergeSort startsBefore).filterMap (clip t.domain))⟩

/-- The values of a type that stand in the relation `op` to `k`. -/
def satisfying (op : BinaryOp) (k : Int) (t : CType) : RangeSet :=
  let d := t.domain
  match op with
  | .eq => inter (point k) (interval d.lo d.hi)
  | .ne => compl (inter (point k) (interval d.lo d.hi)) t
  | .lt => interval d.lo (min (k - 1) d.hi)
  | .le => interval d.lo (min k d.hi)
  | .gt => interval (max (k + 1) d.lo) d.hi
  | .ge => interval (max k d.lo) d.hi
  | _ => interval d.lo d.hi

/-- A set as text. -/
def text (s : RangeSet) : String :=
  let range (r : Interval) : String := "[" ++ toString r.lo ++ ", " ++ toString r.hi ++ "]"
  "\x7b " ++ ", ".intercalate (s.ranges.map range) ++ " \x7d"

end RangeSet

end PathScout

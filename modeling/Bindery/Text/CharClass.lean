/-
  Sets of characters, given by the code points at which membership changes.

  The classes of a character standard have hundreds of ranges.  `CharClass`
  keeps one as the ascending boundaries of its ranges (start, end, start,
  end, …), so that a character belongs to it iff an odd number of boundaries
  are at most its code point; `CharClass.contains` finds that number by
  bisection.  The tables list how far each boundary is from the one before
  (`CharClass.ofLengths`).
-/

namespace Bindery

/-- A set of characters: the ascending code points at which membership
    changes, beginning with the first member. -/
structure CharClass where
  bounds : Array Nat

namespace CharClass

/-- The boundaries that follow `start` at these distances from each other. -/
def boundsFrom (start : Nat) : List Nat → List Nat
  | [] => []
  | length :: lengths => (start + length) :: boundsFrom (start + length) lengths

/-- The class with ranges of these lengths: of the characters before the first
    member, of the members that follow, of the characters up to the next one, and
    so on. -/
def ofLengths (lengths : List Nat) : CharClass := ⟨(boundsFrom 0 lengths).toArray⟩

/-- The boundary `a` in its place among others, and `merge` of those behind it.
    Membership does not change where two boundaries are the same. -/
def placeBound (a : Nat) (merge : List Nat → List Nat) : List Nat → List Nat
  | [] => a :: merge []
  | b :: bs =>
    if a < b then a :: merge (b :: bs)
    else if a = b then merge bs
    else b :: placeBound a merge bs

def mergeBounds : List Nat → List Nat → List Nat
  | [], bs => bs
  | a :: as, bs => placeBound a (mergeBounds as) bs

/-- The class that differs from `k` in the characters of the class with ranges of
    these lengths. -/
def except (k : CharClass) (lengths : List Nat) : CharClass :=
  ⟨(mergeBounds k.bounds.toList (boundsFrom 0 lengths)).toArray⟩

/-- The number of boundaries that are at most `n`, when those below index
    `lo` are and those from index `hi` on are not. -/
def rank (bounds : Array Nat) (n lo hi : Nat) : Nat :=
  if lo < hi then
    let mid := (lo + hi) / 2
    if bounds.getD mid 0 ≤ n then rank bounds n (mid + 1) hi else rank bounds n lo mid
  else lo
termination_by hi - lo

def contains (k : CharClass) (c : Char) : Bool :=
  rank k.bounds c.toNat 0 k.bounds.size % 2 == 1

end CharClass

end Bindery

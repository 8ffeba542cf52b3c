/-
  How often a child may occur: bounds and patterns.

  `Occurs` are the bounds of a relation.  `Pattern` records the modifiers under
  which a pattern of a grammar stands relative to its parent; its flags are
  independent and only ever added, and `Pattern.occurs` reads the bounds off
  them.
-/

namespace Bindery.Schema

/-! ## Bounds -/

inductive MaxOccurs where
  | unbounded
  | count (n : Nat)
deriving DecidableEq, Repr, Inhabited

namespace MaxOccurs

/-- The bound written as an integer: negative ones stand for no bound. -/
def ofSentinel (n : Int) : MaxOccurs :=
  if n < 0 then unbounded else count n.toNat

/-- The integer a bound is written as: `-1` if there is none, and never more
    than the largest one of 64 bits. -/
def toSentinel : MaxOccurs → Int
  | unbounded => -1
  | count n => if n < Nat.pow 2 63 then n else Nat.pow 2 63 - 1

protected def max : MaxOccurs → MaxOccurs → MaxOccurs
  | count a, count b => count (Nat.max a b)
  | _, _ => unbounded

def text : MaxOccurs → String
  | unbounded => "unbounded"
  | count n => toString n

end MaxOccurs

structure Occurs where
  min : Nat := 1
  max : MaxOccurs := .count 1
deriving DecidableEq, Repr, Inhabited

namespace Occurs

/-- Bounds that accept what either accepts when both fill the same slot. -/
def widen (a b : Occurs) : Occurs :=
  { min := Nat.min a.min b.min, max := .unbounded }

def isList (o : Occurs) : Bool :=
  o.max != .count 1 && o.max != .count 0

def isOptional (o : Occurs) : Bool :=
  o.min == 0 && !o.isList

def text (o : Occurs) : String :=
  toString o.min ++ ".." ++ o.max.text

end Occurs

/-! ## Patterns -/

/-- The modifiers under which a pattern stands. -/
structure Pattern where
  optional : Bool := false
  zeroOrMore : Bool := false
  oneOrMore : Bool := false
  choice : Bool := false
  /-- The alternation the pattern belongs to.  Siblings from different
      alternations never share one. -/
  group : Option Nat := none
deriving DecidableEq, Repr, Inhabited

namespace Pattern

def isEmpty (p : Pattern) : Bool :=
  !(p.optional || p.zeroOrMore || p.oneOrMore || p.choice)

/-- The modifiers of both.  The alternation of `q`, the enclosing one, wins. -/
def merge (p q : Pattern) : Pattern where
  optional := p.optional || q.optional
  zeroOrMore := p.zeroOrMore || q.zeroOrMore
  oneOrMore := p.oneOrMore || q.oneOrMore
  choice := p.choice || q.choice
  group := q.group <|> p.group

/-- The pattern as an alternative of `group`, unless it already is one of an
    outer alternation, which then also takes the nested alternatives. -/
def inChoice (p : Pattern) (group : Nat) : Pattern :=
  { p with choice := true, group := p.group <|> some group }

/-- The pattern as it applies to an attribute.  Attributes do not alternate:
    one reached through a choice is optional. -/
def forAttribute (p : Pattern) : Pattern :=
  { p with optional := p.optional || p.choice, choice := false, group := none }

/-- The bounds that the modifiers give.  The repetitions are wider than
    `optional` and win when several are set. -/
def occurs (p : Pattern) : Occurs :=
  if p.oneOrMore then ⟨1, .unbounded⟩
  else if p.zeroOrMore then ⟨0, .unbounded⟩
  else if p.optional then ⟨0, .count 1⟩
  else ⟨1, .count 1⟩

end Pattern

end Bindery.Schema

/-
  Where the nodes of a grammar stand.

  An address leads from a node up to the root, so that the path to whatever
  encloses a node is read off it step by step.

  * `enclosing`: the nodes on the way up to the nearest element, definition or
    start;
  * `under`: the modifiers that these nodes amount to, with a number for every
    choice;
  * `group_eq_iff`: with numbers that tell choices apart, a group is the
    outermost choice on the path.
-/
import Bindery.Schema.RelaxNg

namespace Bindery.Schema.RelaxNg

open Markup (Node Head)

/-- The way from a node up to the root: `i :: a` is the child number `i` of the
    node at `a`. -/
abbrev Address := List Nat

def nodeAt (root : Node) : Address → Option Node
  | [] => some root
  | i :: a => (nodeAt root a).bind (·.children[i]?)

def isA (c : Construct) : Node → Bool
  | .element head _ => Construct.ofHead head = c
  | _ => false

def stands (root : Node) (c : Construct) (a : Address) : Bool := (nodeAt root a).any (isA c)

/-- Whether the modifiers of a content begin anew at the address. -/
def isBoundary (root : Node) (a : Address) : Bool :=
  stands root .element a || stands root .define a || stands root .start a

/-- **The path from a node up to the nearest enclosing element, definition or
    start**, both left out, beginning with the parent of the node. -/
def enclosing (root : Node) : Address → List Address
  | [] => []
  | _ :: a => if isBoundary root a then [] else a :: enclosing root a

def outermostChoice (root : Node) (a : Address) : Option Address :=
  ((enclosing root a).filter (stands root .choice)).getLast?

/-- **The modifiers on the path**: those of the constructs that stand on it,
    and the number of the outermost choice among these. -/
def under (root : Node) (number : Address → Nat) (a : Address) : Pattern where
  optional := (enclosing root a).any (stands root .optional)
  zeroOrMore := (enclosing root a).any (stands root .zeroOrMore)
  oneOrMore := (enclosing root a).any (stands root .oneOrMore)
  choice := (enclosing root a).any (stands root .choice)
  group := (outermostChoice root a).map number

/-! ## On the way down -/

section
variable {root : Node} {a : Address} {head : Head} {children : List Node}

theorem nodeAt_child {n : Node} (h : nodeAt root a = some n) (i : Nat) :
    nodeAt root (i :: a) = n.children[i]? := by
  rw [nodeAt, h, Option.bind_some]

theorem stands_eq (h : nodeAt root a = some (.element head children)) (c : Construct) :
    stands root c a = decide (Construct.ofHead head = c) := by
  rw [stands, h]
  rfl

/-- The modifiers of the children of a construct that stands under `p`, where a
    choice has the number `group`. -/
def Construct.passOn (group : Nat) (p : Pattern) : Construct → Pattern
  | optional => { p with optional := true }
  | zeroOrMore => { p with zeroOrMore := true }
  | oneOrMore => { p with oneOrMore := true }
  | choice => p.inChoice group
  | element | define | start => {}
  | _ => p

theorem under_child (number : Address → Nat) (h : nodeAt root a = some (.element head children))
    (i : Nat) : under root number (i :: a) =
      (Construct.ofHead head).passOn (number a) (under root number a) := by
  have hstands := stands_eq h
  have houter : ∀ l : List Address, (a :: l).getLast? = l.getLast?.or (some a) := by
    intro l
    rw [List.getLast?_cons]
    cases l.getLast? <;> rfl
  cases hc : Construct.ofHead head <;>
    simp [under, enclosing, isBoundary, outermostChoice, hstands, hc, houter, Construct.passOn,
      Pattern.inChoice]

end

/-! ## Groups -/

theorem group_isSome_iff (root : Node) (number : Address → Nat) (a : Address) :
    (under root number a).group.isSome = true ↔
      ∃ w ∈ enclosing root a, stands root .choice w = true := by
  simp [under, outermostChoice]

theorem group_eq_iff {number : Address → Nat} (hnumber : Function.Injective number) (root : Node)
    (a b : Address) : (under root number a).group = (under root number b).group ↔
      outermostChoice root a = outermostChoice root b :=
  (Option.map_injective hnumber).eq_iff

end Bindery.Schema.RelaxNg

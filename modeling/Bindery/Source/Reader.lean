/-
  Reading syntax trees.

  `descend` closes the circle of the readers: `fuel` bounds how deep they go in
  one another, and is chosen by the number of tokens.  `readType?`, `readPath?`
  and `readBody?` read the whole of a text.
-/
import Bindery.Source.Reading.Item

namespace Bindery.Source

def readGoal (self : Descent) : Goal → Parse Tree
  | .type plus => readType self plus
  | .bound captures constant => readBound self captures constant
  | .pattern => readPattern self
  | .cases => readCases self
  | .expr records level => readExpr self records level
  | .unary records => readUnary self records
  | .first => readFirst self
  | .cond => readCond self
  | .block => readPlainBlock self
  | .body => readOwnBlock self
  | .item => readItem self
  | .importTree root => readImportTree self root

def descend : Nat → Descent
  | 0, _ => failure
  | fuel + 1, goal => readGoal (descend fuel) goal

/-! ## Whole texts -/

mutual

def countTokens : List Token → Nat
  | [] => 0
  | t :: ts => countToken t + countTokens ts

def countToken : Token → Nat
  | .group _ body => 2 + countTokens body
  | _ => 1

end

/-- Reads all of a text by `p`, which may go as deep as there are tokens for
    it. -/
def readAll? (p : Descent → Parse Tree) (s : String) : Option Tree := do
  let ts ← tokens? s
  match p (descend (8 * (countTokens ts + 4))) ts with
  | some (t, []) => some t
  | _ => none

def readType? (s : String) : Option Tree := readAll? (readType · true) s

def readPath? (s : String) : Option Tree := readAll? (readPath · false) s

def readBody? (s : String) : Option (List Tree) :=
  bodyOf <$> readAll? readPlainBlock ("\x7b " ++ s ++ " \x7d")

/-- The units of a text between which the printed form has a blank: its tokens,
    with runs of marks that are one operator joined. -/
def unitsOf : List Token → List String
  | [] => []
  | .mark ':' true :: .mark ':' _ :: ts => "::" :: unitsOf ts
  | .mark '-' true :: .mark '>' _ :: ts => "->" :: unitsOf ts
  | .mark c _ :: ts => String.singleton c :: unitsOf ts
  | .word w :: ts => w :: unitsOf ts
  | .literal text :: ts => text :: unitsOf ts
  | .lifetime name :: ts => ("'" ++ name) :: unitsOf ts
  | .group d body :: ts =>
    let inner := " ".intercalate (unitsOf body)
    (match d with
      | .paren => "(" ++ inner ++ ")"
      | .bracket => "[" ++ inner ++ "]"
      | .brace => "\x7b " ++ inner ++ (if body.isEmpty then "\x7d" else " \x7d")) :: unitsOf ts

def pathUnits? (s : String) : Option (List String) := do
  discard (readPath? s)
  return unitsOf (← tokens? s)

end Bindery.Source

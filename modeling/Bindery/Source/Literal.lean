/-
  What literals stand for.

  A literal token keeps its text.  Of a few kinds more is asked: whether it is
  a number, a character or a string, which index a whole number is, and which
  text a string is.
-/
import Bindery.Source.Token

namespace Bindery.Source

/-- Whether the text is a number, with a fraction or without. -/
def isNumberText (s : String) : Bool := s.toList.head?.any (·.isDigit)

/-- Whether the text is a number with a fraction, an exponent or a type of such
    numbers. -/
def isFractionText (s : String) : Bool :=
  isNumberText s && ((afterFraction s.toList).isSome || s.endsWith "f32" || s.endsWith "f64")

def isWholeText (s : String) : Bool := isNumberText s && !isFractionText s

def isStringText (s : String) : Bool :=
  match s.toList with
  | '"' :: _ | 'r' :: _ => true
  | _ => false

/-- Whether the text is a literal that takes up little space: a truth value, a
    whole number, a character or a byte. -/
def isSmallText (s : String) : Bool :=
  match s.toList with
  | '\'' :: _ | 'b' :: '\'' :: _ => true
  | _ => s == "true" || s == "false" || isWholeText s

/-- The value of digits of the base, without `_`. -/
def digitsValue? (base : Nat) (cs : List Char) : Option Nat :=
  if cs.all fun c => c == '_' || isHexDigit c && decide (hexValue [c] < base) then
    some (cs.foldl (fun n c => if c == '_' then n else base * n + hexValue [c]) 0)
  else none

/-- The index that a whole number without a type stands for. -/
def indexValue? (s : String) : Option Nat :=
  let value := match s.toList with
    | '0' :: 'x' :: cs => digitsValue? 16 cs
    | '0' :: 'o' :: cs => digitsValue? 8 cs
    | '0' :: 'b' :: cs => digitsValue? 2 cs
    | cs => digitsValue? 10 cs
  if isWholeText s then value.filter (· < Nat.pow 2 32) else none

/-- The indices that a number with a point stands for after a point of its own,
    as in `pair.0.1`, and whether it ends with its point. -/
def indexValues? (s : String) : Option (List Nat × Bool) := do
  let open? := s.endsWith "."
  let parts := (if open? then (s.dropEnd 1).copy else s).splitOn "."
  return (← parts.mapM indexValue?, open?)

/-! ## Strings -/

def escapedChar : Char → Char
  | 'n' => '\n'
  | 'r' => '\r'
  | 't' => '\t'
  | '0' => '\x00'
  | c => c

def stringChars (cs : List Char) : List Char :=
  match cs with
  | [] | '"' :: _ => []
  | '\r' :: '\n' :: rest => '\n' :: stringChars rest
  | '\\' :: 'x' :: a :: b :: rest => Char.ofNat (hexValue [a, b]) :: stringChars rest
  | '\\' :: 'u' :: '\x7b' :: rest =>
    let digits := rest.takeWhile (· != '\x7d')
    Char.ofNat (hexValue digits) :: stringChars (rest.drop (digits.length + 1))
  | '\\' :: c :: rest =>
    if c == '\n' || c == '\r' then stringChars (rest.dropWhile " \t\n\r".toList.contains)
    else escapedChar c :: stringChars rest
  | c :: rest => c :: stringChars rest
termination_by cs.length
decreasing_by
  all_goals simp only [List.length_cons, List.length_drop]
  all_goals try omega
  exact Nat.lt_succ_of_lt (Nat.lt_succ_of_le (List.dropWhile_sublist _).length_le)

def stringValue? (s : String) : Option String :=
  match s.toList with
  | '"' :: cs => some (String.ofList (stringChars cs))
  | 'r' :: cs =>
    let hashes := (cs.takeWhile (· == '#')).length
    let body := cs.drop (hashes + 1)
    (afterRawString .text hashes body).map fun rest =>
      String.ofList (body.take (body.length - rest.length - (hashes + 1)))
  | _ => none

end Bindery.Source

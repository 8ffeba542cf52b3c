/-
  Source text in units.

  The body of a generated function is a list of units: words, operators,
  literals and bracketed groups.  Its text has one blank between two units and
  none inside round and square brackets.
-/
import Bindery.Text.Quoted

namespace Bindery.Code

open Text

abbrev Units := List String

def Units.text (us : Units) : String := " ".intercalate us

/-- The units of a text without brackets that hold several. -/
def units (s : String) : Units := s.splitOn " "

def parens (us : Units) : String := "(" ++ us.text ++ ")"

def braces (us : Units) : String :=
  if us.isEmpty then "\x7b \x7d" else "\x7b " ++ us.text ++ " \x7d"

/-- The characters of a string literal.  A zero character before an octal
    digit is written by its two hexadecimal digits. -/
def literalChars : List Char → List Char
  | [] => []
  | c :: rest =>
    (if c == '\x00' && rest.head?.any (fun d => '0' ≤ d && d ≤ '7') then "\\x00".toList
      else escapeChar c) ++ literalChars rest

def literal (s : String) : String := String.ofList ('"' :: literalChars s.toList ++ ['"'])

end Bindery.Code

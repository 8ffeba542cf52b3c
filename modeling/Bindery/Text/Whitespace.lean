/-
  White space facets of scalar types.
-/
import Bindery.Text.Blank

namespace Bindery.Text

inductive Whitespace where
  | preserve
  | replace
  | collapse
deriving DecidableEq, Repr, Inhabited

/-- Tabs and line ends are blanks. -/
def replaceBlank (c : Char) : Char :=
  if c = '\t' || c = '\n' || c = '\r' then ' ' else c

/-- The value under a white space facet: as it is, with blanks for tabs and
    line ends, or as its words, set apart by one blank. -/
def Whitespace.normalize (w : Whitespace) (s : String) : String :=
  match w with
  | preserve => s
  | replace => String.ofList (s.toList.map replaceBlank)
  | collapse => " ".intercalate (words s)

end Bindery.Text

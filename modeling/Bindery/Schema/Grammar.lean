/-
  Grammars: a start pattern and named definitions.

  A name may be defined more than once; its bodies are then alternatives that
  all take the place of a reference to it.
-/
import Bindery.Table
import Bindery.Schema.Element

namespace Bindery.Schema

/-- The bodies of every definition, in the order of their first appearance. -/
abbrev Definitions := Table (List ElementPattern)

def Definitions.add (ds : Definitions) (name : String) (body : ElementPattern) : Definitions :=
  ds.insert name ((ds.get? name).getD [] ++ [body])

/-- A grammar as it is read: the wrapper around the start pattern, and the
    definitions. -/
structure Grammar where
  start : ElementPattern := {}
  definitions : Definitions := {}
deriving DecidableEq, Repr

end Bindery.Schema

/-
  The generated code: files of classes with members, functions, enumerations
  and tagged unions.  Types, and the bodies of functions, are kept as text.
-/
import Bindery.Code.Name

namespace Bindery.Code

structure Member where
  name : String
  type : String
  documentation : Option String := none
deriving DecidableEq, Repr, Inhabited

structure Function where
  name : String
  returns : Option String := none
  arguments : List (String × String) := []
  body : String := ""
  isPublic : Bool := true
  /-- Whether the function is of the class rather than of a value. -/
  isStatic : Bool := false
  /-- Whether the function leaves the value as it is. -/
  isConst : Bool := false
  implements : Option String := none
  documentation : Option String := none
deriving DecidableEq, Repr, Inhabited

structure Enum where
  name : String
  values : List String := []
  combinable : Bool := false
  documentation : Option String := none
deriving DecidableEq, Repr, Inhabited

def Enum.variants (e : Enum) : List (String × String) := Code.variants e.values

structure Union where
  name : String
  variants : List (String × String) := []
  documentation : Option String := none
deriving DecidableEq, Repr, Inhabited

structure Class where
  name : String
  module : Option String := none
  documentation : Option String := none
  bases : List String := []
  members : List Member := []
  functions : List Function := []
  enums : List Enum := []
  unions : List Union := []
deriving DecidableEq, Repr, Inhabited

structure File where
  name : String := ""
  documentation : Option String := none
  classes : List Class := []
deriving DecidableEq, Repr, Inhabited

end Bindery.Code

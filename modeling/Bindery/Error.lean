/-
  What can go wrong between a schema and the source generated for it.
-/
import Bindery.Schema.Error

namespace Bindery

open Text (quote)

inductive GenerateError where
  | schema (fault : Schema.SchemaError)
  | conflict (cls first second : String)
  | runtimePath (path : String)
  | illegalName (name : String)
  | invalidType (text : String)
  | invalidBody (function : String)
  /-- The code uses a form that can be read and has no layout. -/
  | unsetForm
  | access (path reason : String)
deriving DecidableEq, Repr

def GenerateError.message : GenerateError → String
  | schema fault => fault.message
  | conflict cls first second =>
    s!"class {cls} is generated for both {quote first} and {quote second}"
  | runtimePath path => s!"{quote path} is not a valid runtime crate path"
  | illegalName name => s!"{quote name} is not a valid identifier"
  | invalidType text => s!"invalid type {quote text}"
  | invalidBody function => s!"invalid body of function {function}"
  | unsetForm => "the code uses a form that has no layout"
  | access path reason => s!"failed to access {path}: {reason}"

def GenerateError.isAbrupt : GenerateError → Bool
  | schema fault => fault.isAbrupt
  | illegalName _ | unsetForm => true
  | _ => false

end Bindery

/-
  Why an instance cannot be read.
-/
import Bindery.Markup.Error
import Bindery.Text.Quoted

namespace Bindery.Instance

inductive ReadError where
  | markup (fault : Markup.Error)
  | unexpectedElement (expected found : String)
  | invalidValue (value typeName : String)
deriving DecidableEq, Repr

def ReadError.message : ReadError → String
  | markup fault => s!"malformed document: {fault.message}"
  | unexpectedElement expected found => s!"expected element <{expected}>, found <{found}>"
  | invalidValue value typeName => s!"value {Text.quote value} is not a valid {typeName}"

def ReadError.isAbrupt : ReadError → Bool
  | markup fault => fault.isAbrupt
  | _ => false

end Bindery.Instance

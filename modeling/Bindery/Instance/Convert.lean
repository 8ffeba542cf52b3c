/-
  Single values and their literals.
-/
import Bindery.Instance.Datum

namespace Bindery.Instance

open Binding Text

/-- The variant for a text; the invalid one if there is none. -/
def variantOf (e : Enumeration) (text : String) : String :=
  match e.variants.find? (·.2 == text) with
  | some (name, _) => name
  | none => Code.invalidVariant

/-- The text of a variant, which is empty for the invalid one. -/
def textOf (e : Enumeration) (name : String) : String :=
  (e.variants.lookup name).getD ""

def readValue (type : ValueType) (literal : String) : Except ReadError Datum :=
  match type with
  | .scalar t => .scalar <$> Scalar.read t ((whitespace t).normalize literal)
  | .enumeration e =>
    if e.combinable then .ok (.list ((words literal).map fun w => .variant (variantOf e w)))
    else .ok (.variant (variantOf e (Whitespace.collapse.normalize literal)))
  | .object name _ => .ok (.object name [])

def variantLiteral (e : Enumeration) : Datum → String
  | .variant name => textOf e name
  | _ => ""

def writeValue (type : ValueType) (d : Datum) : String :=
  match type, d with
  | .scalar _, .scalar s => s.write
  | .enumeration e, .list ds => " ".intercalate (ds.map (variantLiteral e))
  | .enumeration e, d => variantLiteral e d
  | _, _ => ""

end Bindery.Instance

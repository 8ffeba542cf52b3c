/-
  Values of scalar types, and their literals in attributes and texts.
-/
import Bindery.Instance.Error
import Bindery.Number.Binary64
import Bindery.Schema.DataType
import Bindery.Text.Whitespace

namespace Bindery.Instance

open Number Schema Text

inductive Scalar where
  | text (s : String)
  | integer (n : Int)
  | decimal (x : Binary64)
  | boolean (b : Bool)
deriving DecidableEq, Repr

namespace Scalar

def initial : DataType → Scalar
  | .integer | .int => integer 0
  | .decimal => decimal default
  | .boolean => boolean false
  | .string | .normalizedString | .token | .date | .dateTime => text ""

def readBoolean? (s : String) : Option Bool :=
  match Whitespace.collapse.normalize s with
  | "true" | "1" => some true
  | "false" | "0" => some false
  | _ => none

def checked {α : Type} (literal typeName : String) : Option α → Except ReadError α
  | some a => .ok a
  | none => .error (.invalidValue literal typeName)

/-- The value of a literal.  Blanks around numbers and truth values do not
    matter. -/
def read (type : DataType) (literal : String) : Except ReadError Scalar :=
  match type with
  | .int => integer <$> checked literal "int" (readInteger? 32 (trimChars literal.toList))
  | .integer => integer <$> checked literal "integer" (readInteger? 64 (trimChars literal.toList))
  | .decimal => decimal <$> checked literal "decimal" (Binary64.read? (trimChars literal.toList))
  | .boolean => boolean <$> checked literal "boolean" (readBoolean? literal)
  | .string | .normalizedString | .token | .date | .dateTime => .ok (text literal)

def write : Scalar → String
  | text s => s
  | integer n => writeInteger n
  | decimal x => x.write
  | boolean b => if b then "true" else "false"

def shown : Scalar → String
  | text s => quote s
  | integer n => writeInteger n
  | decimal x => x.shown
  | boolean b => if b then "true" else "false"

def same : Scalar → Scalar → Bool
  | decimal x, decimal y => x.same y
  | a, b => a == b

end Scalar

end Bindery.Instance

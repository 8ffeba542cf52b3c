/-
  Scalar types and the closed sets of values that restrict them.
-/

namespace Bindery.Schema

/-- The type of a text-only element or an attribute value. -/
inductive DataType where
  | string
  | normalizedString
  | token
  | integer
  | int
  | decimal
  | boolean
  | date
  | dateTime
deriving DecidableEq, Repr, Inhabited

namespace DataType

/-- The type with a name of the XML Schema datatype library, given without its
    prefix. -/
def ofName? : String → Option DataType
  | "string" | "anySimpleType" | "anyURI" | "QName" | "ID" | "IDREF" => some string
  | "normalizedString" => some normalizedString
  | "token" | "NMTOKEN" | "Name" | "NCName" | "language" => some token
  | "integer" | "long" | "nonNegativeInteger" | "positiveInteger" | "nonPositiveInteger"
  | "negativeInteger" | "unsignedLong" | "unsignedInt" => some integer
  | "int" | "short" | "byte" | "unsignedShort" | "unsignedByte" => some int
  | "decimal" | "double" | "float" => some decimal
  | "boolean" => some boolean
  | "date" => some date
  | "dateTime" | "dateTimeStamp" => some dateTime
  | _ => none

/-- The type with a name of the library.  Types it does not have are strings,
    so that every value can be held. -/
def ofName (name : String) : DataType :=
  (ofName? name).getD string

/-- Whether white space around and inside values does not matter. -/
def collapses : DataType → Bool
  | string | normalizedString => false
  | _ => true

end DataType

/-- The values a scalar may have. -/
structure Facet where
  values : List String := []
  /-- Whether the scalar is a list of such values, separated by white space. -/
  combinable : Bool := false
deriving DecidableEq, Repr, Inhabited

namespace Facet

def push (f : Facet) (value : String) : Facet :=
  if value ∈ f.values then f else { f with values := f.values ++ [value] }

def isEmpty (f : Facet) : Bool := f.values.isEmpty

/-- A facet that restricts nothing is none. -/
def proper (f : Option Facet) : Option Facet :=
  f.filter (!·.isEmpty)

end Facet

end Bindery.Schema

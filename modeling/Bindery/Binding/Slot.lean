/-
  Slots: the members of a class, with all that is needed to read and write
  them.

  A slot says where its values stand in an element (`Place`), how many there
  are (`Cardinality`) and what they are (`ValueType`).  The texts of the types
  are those of the generated source.
-/
import Bindery.Code.Name
import Bindery.Schema.DataType
import Bindery.Text.Whitespace

namespace Bindery.Binding

open Schema Text

/-- How many values a slot holds. -/
inductive Cardinality where
  | one
  | optional
  | list
deriving DecidableEq, Repr, Inhabited

/-- A type whose values are the variants for a list of texts. -/
structure Enumeration where
  name : String
  /-- What is enumerated; names the conversions to and from texts. -/
  label : String
  values : List String
  /-- Whether a value is a list of variants, separated by white space. -/
  combinable : Bool := false
deriving DecidableEq, Repr, Inhabited

namespace Enumeration

def variants (e : Enumeration) : List (String × String) := Code.variants e.values

def fromString (e : Enumeration) : String := e.label ++ "_from_string"

def toString (e : Enumeration) : String := e.label ++ "_to_string"

end Enumeration

inductive ValueType where
  | scalar (type : DataType)
  | enumeration (e : Enumeration)
  /-- A class.  It is boxed where the class is only being made. -/
  | object (name : String) (boxed : Bool)
deriving DecidableEq, Repr, Inhabited

/-- The white space facet applied before a scalar is read. -/
def whitespace : DataType → Whitespace
  | .normalizedString => .replace
  | .token | .date | .dateTime => .collapse
  -- Numbers and truth values are trimmed when they are read
  | .string | .integer | .int | .decimal | .boolean => .preserve

def scalarText : DataType → String
  | .string | .normalizedString | .token | .date | .dateTime => "String"
  | .integer => "i64"
  | .int => "i32"
  | .decimal => "f64"
  | .boolean => "bool"

namespace ValueType

/-- The type in the generated source. -/
def text : ValueType → String
  | scalar type => scalarText type
  | enumeration e => if e.combinable then s!"Vec<{e.name}>" else e.name
  | object name boxed => if boxed then s!"Box<{name}>" else name

def enumeration? : ValueType → Option Enumeration
  | enumeration e => some e
  | _ => none

end ValueType

/-- One of the alternatives that share a slot. -/
structure Alternative where
  name : String
  tag : String
  type : ValueType
deriving DecidableEq, Repr, Inhabited

/-- Where the values of a slot stand in an element. -/
inductive Place where
  | attr (tag : String) (type : ValueType)
  /-- The text of the element itself. -/
  | text (type : ValueType)
  | child (tag : String) (type : ValueType)
  /-- Children of several tags, held by a union.  `group` names the choice. -/
  | choice (union group : String) (alternatives : List Alternative)
deriving DecidableEq, Repr, Inhabited

namespace Place

def typeText : Place → String
  | attr _ type | text type | child _ type => type.text
  | choice union _ _ => union

def types : Place → List ValueType
  | attr _ type | text type | child _ type => [type]
  | choice _ _ alternatives => alternatives.map (·.type)

def enumerations (p : Place) : List Enumeration := p.types.filterMap (·.enumeration?)

end Place

/-- A member variable with all that is needed to read and write it. -/
structure Slot where
  member : String
  /-- The name of one value, for the function that adds one to a list. -/
  item : String
  cardinality : Cardinality
  place : Place
deriving DecidableEq, Repr, Inhabited

namespace Slot

def typeText (s : Slot) : String := s.place.typeText

/-- The type of the member in the generated source. -/
def memberText (s : Slot) : String :=
  match s.cardinality with
  | .one => s.typeText
  | .optional => s!"Option<{s.typeText}>"
  | .list => s!"Vec<{s.typeText}>"

/-- The class in the box, if the value is boxed. -/
def boxed? (s : Slot) : Option String :=
  match s.place with
  | .child _ (.object name true) => some name
  | _ => none

/-- The names that stand alone as identifiers when the slot is read and
    written. -/
def names (s : Slot) : List String :=
  s.member :: s.place.enumerations.flatMap (fun e => [e.toString, e.fromString]) ++
    match s.place with
    | .choice union _ alternatives => union :: alternatives.map (·.name)
    | _ => []

end Slot

/-- A class: the binding of one element. -/
structure Class where
  name : String
  element : String
  tag : String
  module : Option String := none
  /-- Whether whole documents are read and written as this class. -/
  root : Bool := false
  attributes : List Slot := []
  text : Option Slot := none
  elements : List Slot := []
deriving DecidableEq, Repr, Inhabited

namespace Class

/-- The slots: attributes, text, then child elements. -/
def slots (c : Class) : List Slot := c.attributes ++ c.text.toList ++ c.elements

/-- The enumerations of the class: those of its child elements, then those of
    its attributes and its text. -/
def enumerations (c : Class) : List Enumeration :=
  (c.elements ++ c.attributes ++ c.text.toList).flatMap (·.place.enumerations)

def unions (c : Class) : List (String × String × List Alternative) :=
  c.elements.filterMap fun s =>
    match s.place with
    | .choice union group alternatives => some (union, group, alternatives)
    | _ => none

/-- Whether every slot is a list of child elements.  Nothing is written for a
    value of such a class whose lists are all empty. -/
def isListShaped (c : Class) : Bool :=
  !c.slots.isEmpty && c.slots.all fun s =>
    s.cardinality == .list &&
      match s.place with
      | .child .. | .choice .. => true
      | _ => false

end Class

end Bindery.Binding

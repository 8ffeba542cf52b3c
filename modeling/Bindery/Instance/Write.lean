/-
  Writing a value of a class as an element.

  Attributes come first, in the order of their slots, then the text and the
  child elements.  A class whose members are all lists of child elements is
  left out altogether when they are all empty.
-/
import Bindery.Instance.Convert
import Bindery.Markup.Writer

namespace Bindery.Instance

open Binding Markup

/-- The values that the member of a slot holds. -/
def held (s : Slot) (d : Datum) : List Datum :=
  match s.cardinality, d with
  | .one, d => [d]
  | .optional, .present d => [d]
  | .optional, _ => []
  | .list, .list ds => ds
  | .list, _ => []

def attributesOf : List Slot → List Datum → List (String × String)
  | s :: ss, d :: ds =>
    (match s.place with
      | .attr tag type => (held s d).map fun v => (tag, writeValue type v)
      | _ => []) ++ attributesOf ss ds
  | _, _ => []

def isEmptyList : Datum → Bool
  | .list [] => true
  | _ => false

def textContents (s : String) : List Content := if s.isEmpty then [] else [.text s]

def literalElement (tag : String) (type : ValueType) (d : Datum) : List Content :=
  [.element tag [] (textContents (writeValue type d))]

def elementOf (c : Binding.Class) (fields : List Datum) (content : List Content) : List Content :=
  if c.isListShaped && fields.all isEmptyList then []
  else [.element c.tag (attributesOf c.slots fields) content]

/-- The content for a value that is no object, no alternative and no
    container. -/
def plainContent (p : Place) (d : Datum) : List Content :=
  match p with
  | .text type => textContents (writeValue type d)
  | .child tag type => literalElement tag type d
  | .attr .. | .choice .. => []

/-- Where the values of an alternative stand. -/
def alternativePlace? (p : Place) (name : String) : Option Place :=
  match p with
  | .choice _ _ alternatives =>
    (alternatives.find? (·.name == name)).map fun a => .child a.tag a.type
  | _ => none

mutual

def placeContent (cs : Classes) (p : Place) : Cardinality → Datum → List Content
  | .optional, .present d => placeContent cs p .one d
  | .list, .list ds => itemsContent cs p ds
  | .one, .alternative name d =>
    match alternativePlace? p name with
    | some place => placeContent cs place .one d
    | none => []
  | .one, .object name fields =>
    match cs.get? name with
    | some c => elementOf c fields (fieldsContent cs c.slots fields)
    | none => []
  | .one, .scalar s => plainContent p (.scalar s)
  | .one, .variant name => plainContent p (.variant name)
  | .one, .list ds => plainContent p (.list ds)
  | _, _ => []

def itemsContent (cs : Classes) (p : Place) : List Datum → List Content
  | [] => []
  | d :: ds => placeContent cs p .one d ++ itemsContent cs p ds

def fieldsContent (cs : Classes) : List Slot → List Datum → List Content
  | s :: ss, d :: ds => placeContent cs s.place s.cardinality d ++ fieldsContent cs ss ds
  | _, _ => []

end

def contentOf (cs : Classes) : Datum → List Content
  | .object name fields =>
    match cs.get? name with
    | some c => elementOf c fields (fieldsContent cs c.slots fields)
    | none => []
  | _ => []

def write (cs : Classes) (d : Datum) : String := writtenAll (contentOf cs d)

def writeFile (cs : Classes) (d : Datum) : String := declarationText ++ write cs d

end Bindery.Instance

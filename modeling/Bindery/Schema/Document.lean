/-
  Documents: what a grammar says, free of its language.

  A document is a flat collection of elements and attributes with unique
  identifiers, connected by relations with occurrence bounds.  Relations that
  alternate carry the same choice: the identifiers of all alternatives, joined
  by `+`.
-/
import Bindery.Table
import Bindery.Schema.Error
import Bindery.Schema.Occurs
import Bindery.Schema.DataType

namespace Bindery.Schema

/-- An edge from an element to an element or attribute of the document. -/
structure Relation where
  target : String
  occurs : Occurs := {}
  /-- The identifiers of all alternatives that share the slot, joined by `+`. -/
  choice : Option String := none
deriving DecidableEq, Repr, Inhabited

namespace Relation

def isList (r : Relation) : Bool := r.occurs.isList

/-- Whether the target may be absent, and occurs at most once. -/
def isOptional (r : Relation) : Bool := r.occurs.isOptional

def choiceMembers (r : Relation) : List String :=
  match r.choice with
  | some choice => (choice.toList.splitOnP (· == '+')).map String.ofList
  | none => []

end Relation

structure Element where
  identifier : String
  name : String
  text : Bool := false
  dataType : Option DataType := none
  facet : Option Facet := none
  elementRelations : List Relation := []
  attributeRelations : List Relation := []
deriving DecidableEq, Repr, Inhabited

structure Attribute where
  identifier : String
  name : String
  dataType : Option DataType := none
  facet : Option Facet := none
deriving DecidableEq, Repr, Inhabited

def hasEnumeration (facet : Option Facet) : Bool :=
  facet.any (!·.isEmpty)

/-- Whether the element carries nothing but text. -/
def Element.isTextOnly (e : Element) : Bool :=
  e.text && e.elementRelations.isEmpty && e.attributeRelations.isEmpty

/-- A flat collection of elements and attributes, connected by relations. -/
structure Document where
  /-- The elements that a document of the schema may have as its root. -/
  roots : List String := []
  elements : Table Element := {}
  attributes : Table Attribute := {}
deriving DecidableEq, Repr, Inhabited

namespace Document

def rootElements (d : Document) : List Element :=
  d.roots.filterMap d.elements.get?

def startElement (d : Document) : Option Element :=
  d.roots.head?.bind d.elements.get?

/-- The first target that is not in the table. -/
def danglingIn {α : Type} (table : Table α) (relations : List Relation) : Option String :=
  (relations.find? fun r => !table.contains r.target).map (·.target)

def danglingOf (d : Document) (e : Element) : Option SchemaError :=
  (danglingIn d.elements e.elementRelations <|> danglingIn d.attributes e.attributeRelations).map
    (.danglingRelation e.identifier)

/-- Checks that every relation, and every root, points at an entity of the
    document. -/
def validate (d : Document) : Except SchemaError Unit :=
  match d.elements.values.findSome? d.danglingOf with
  | some fault => .error fault
  | none =>
    match d.roots.find? (!d.elements.contains ·) with
    | some root => .error (.danglingRelation "" root)
    | none => .ok ()

end Document

end Bindery.Schema

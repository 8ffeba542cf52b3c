/-
  Documents as trees.

  An element has an expanded name (namespace and local name), attributes with
  expanded names, the namespaces in scope, and children.  Adjacent texts are
  one node.  The accessors are total: on nodes that are no elements they give
  the empty name, no attributes and no children.
-/
import Bindery.Markup.Error

namespace Bindery.Markup

structure Attribute where
  space : Option String := none
  name : String
  value : String
deriving DecidableEq, Repr, Inhabited

/-- The namespace bound to a prefix, or to none for the default one. -/
structure Binding where
  label : Option String
  uri : String
deriving DecidableEq, Repr

structure Head where
  space : Option String := none
  name : String
  attributes : List Attribute := []
  /-- The bindings in scope; the first one of a prefix counts. -/
  scope : List Binding := []
  pos : Position := {}
deriving DecidableEq, Repr

inductive Node where
  | element (head : Head) (children : List Node)
  | text (content : String)
  | comment (content : String)
  | instruction
deriving Repr

instance : Inhabited Node := ⟨.instruction⟩

namespace Node

def isElement : Node → Bool
  | element .. => true
  | _ => false

def name : Node → String
  | element head _ => head.name
  | _ => ""

def space : Node → Option String
  | element head _ => head.space
  | _ => none

def pos : Node → Position
  | element head _ => head.pos
  | _ => {}

def attributes : Node → List Attribute
  | element head _ => head.attributes
  | _ => []

def children : Node → List Node
  | element _ children => children
  | _ => []

def elements (n : Node) : List Node :=
  n.children.filter isElement

def attribute? (n : Node) (name : String) : Option String :=
  (n.attributes.find? fun a => a.space = none ∧ a.name = name).map (·.value)

def child? (n : Node) (name : String) : Option Node :=
  n.children.find? (·.name == name)

/-- The namespace that `label` stands for at the element. -/
def uri? (n : Node) (label : Option String) : Option String :=
  match n with
  | element head _ => (head.scope.find? (·.label == label)).map (·.uri)
  | _ => none

/-- The text of a text or a comment; for an element that of its first child,
    if that is a text. -/
def text? : Node → Option String
  | element _ (text content :: _) => some content
  | text content => some content
  | comment content => some content
  | _ => none

def textContent (n : Node) : String :=
  n.children.foldl (fun acc child => match child with
    | text content => acc ++ content
    | _ => acc) ""

end Node

end Bindery.Markup

/-
  Grammars in the XML form of RelaxNG.

  A pattern is read into the element it stands in.  On the way down the
  modifiers met since the last element, definition or start are collected in
  a `Pattern`, which the elements, attributes and references found there take
  along; the content of an element begins with no modifiers again.

  Elements of foreign namespaces are annotations and skipped.  Constructs that
  bindings have no use for are skipped with a notice.
-/
import Bindery.Text.Blank
import Bindery.Schema.Reading

namespace Bindery.Schema.RelaxNg

open Markup (Node Head)

def uri : String := "http://relaxng.org/ns/structure/1.0"

inductive Construct where
  | grammar
  | start
  | define
  | div
  | inclusion
  | element
  | attr
  | ref
  | parentRef
  | text
  | empty
  | optional
  | zeroOrMore
  | oneOrMore
  | choice
  | group
  | interleave
  | mixed
  | list
  | data
  | value
  | name
  | notAllowed
  /-- an annotation -/
  | foreign
  | unknown (tag : String)
deriving DecidableEq, Repr

namespace Construct

def ofTag : String → Construct
  | "grammar" => grammar
  | "start" => start
  | "define" => define
  | "div" => div
  | "include" => inclusion
  | "element" => element
  | "attribute" => attr
  | "ref" => ref
  | "parentRef" => parentRef
  | "text" => text
  | "empty" => empty
  | "optional" => optional
  | "zeroOrMore" => zeroOrMore
  | "oneOrMore" => oneOrMore
  | "choice" => choice
  | "group" => group
  | "interleave" => interleave
  | "mixed" => mixed
  | "list" => list
  | "data" => data
  | "value" => value
  | "name" => name
  | "notAllowed" => notAllowed
  | tag => unknown tag

def ofHead (h : Head) : Construct :=
  match h.space with
  | some space => if space = uri then ofTag h.name else foreign
  | none => ofTag h.name

def title : Construct → String
  | grammar => "Grammar"
  | start => "Start"
  | define => "Define"
  | div => "Div"
  | inclusion => "Include"
  | element => "Element"
  | attr => "Attribute"
  | ref => "Ref"
  | parentRef => "ParentRef"
  | text => "Text"
  | empty => "Empty"
  | optional => "Optional"
  | zeroOrMore => "ZeroOrMore"
  | oneOrMore => "OneOrMore"
  | choice => "Choice"
  | group => "Group"
  | interleave => "Interleave"
  | mixed => "Mixed"
  | list => "List"
  | data => "Data"
  | value => "Value"
  | name => "Name"
  | notAllowed => "NotAllowed"
  | foreign => "Foreign"
  | unknown tag => s!"Unknown({Text.quote tag})"

end Construct

def isName : Node → Bool
  | .element head _ => Construct.ofHead head = .name
  | _ => false

/-- The name of an element or attribute pattern: its attribute `name`, or its
    child `name`. -/
def patternName (n : Node) : Except SchemaError String :=
  let written := n.attribute? "name" <|> (n.children.find? isName).bind Node.text?
  match written with
  | some name => .ok (localName (Text.trim name))
  | none => .error (.missingName n.name n.pos)

/-- An attribute pattern whose content was read into `content`. -/
def foldAttribute (name : String) (pattern : Pattern) (content : ElementPattern) :
    ReadM AttributePattern := do
  if !content.elements.isEmpty || !content.attributes.isEmpty then
    ReadM.tell (.nestedInAttribute name)
  match content.references with
  | first :: _ :: _ => ReadM.tell (.severalReferences name first.name)
  | _ => pure ()
  return { AttributePattern.under name pattern with
    valueReference := content.references.head?.map (·.name)
    dataType := content.dataType
    facet := Facet.proper content.facet }

mutual

/-- Reads one pattern into `target`.  `pattern` are the modifiers met on the
    way. -/
def readPattern (pattern : Pattern) (target : ElementPattern) : Node → ReadM ElementPattern
  | .element head children => do
    let node : Node := .element head children
    match Construct.ofHead head with
    | .element =>
      let name ← ReadM.ofExcept (patternName node)
      let element ← readPatterns {} { name, pattern } children
      return { target with elements := target.elements ++ [element] }
    | .attr =>
      let name ← ReadM.ofExcept (patternName node)
      let content ← readPatterns {} { name } children
      let folded ← foldAttribute name pattern content
      return { target with attributes := target.attributes ++ [folded] }
    | .ref =>
      let name ← ReadM.ofExcept (requiredAttribute node "name")
      return { target with references := target.references ++ [{ name, pattern }] }
    | .text => return { target with hasText := true }
    | .empty => return { target with isEmpty := true }
    | .optional => readPatterns { pattern with optional := true } target children
    | .zeroOrMore => readPatterns { pattern with zeroOrMore := true } target children
    | .oneOrMore => readPatterns { pattern with oneOrMore := true } target children
    | .choice =>
      let group ← ReadM.nextChoice
      readPatterns (pattern.inChoice group) target children
    | .group | .interleave => readPatterns pattern target children
    | .mixed => readPatterns pattern { target with hasText := true } children
    | .list =>
      let target ← readPatterns pattern target children
      match target.facet with
      | some facet => return { target with facet := some { facet with combinable := true } }
      -- a list of plain data is kept as text
      | none => return { target with hasText := true }
    | .data =>
      let type ← ReadM.ofExcept (requiredAttribute node "type")
      let dataType ← ReadM.dataType (localName type)
      return { target with hasText := true, dataType := some dataType }
    | .value =>
      let target := { target with hasText := true }
      return target.pushValue (Text.trim (node.text?.getD ""))
    | .name | .foreign => return target
    | .unknown tag =>
      ReadM.tell (.unknownPattern tag target.name)
      return target
    | .grammar | .start | .define | .div | .inclusion | .parentRef | .notAllowed =>
      ReadM.tell (.unsupportedPattern head.name target.name)
      return target
  | _ => return target

def readPatterns (pattern : Pattern) (target : ElementPattern) :
    List Node → ReadM ElementPattern
  | [] => return target
  | n :: ns => do
    let target ← readPattern pattern target n
    readPatterns pattern target ns

end

def readDefine (n : Node) : ReadM Unit := do
  let name ← ReadM.ofExcept (requiredAttribute n "name")
  let body ← readPatterns {} { name } n.children
  ReadM.tell (.definition name body.elements.length body.attributes.length body.references.length)
  ReadM.define name body

mutual

/-- Reads one part of a grammar.  Several starts are read into one wrapper. -/
def readPart (start : Option ElementPattern) : Node → ReadM (Option ElementPattern)
  | .element head children => do
    match Construct.ofHead head with
    | .start => some <$> readPatterns {} (start.getD {}) children
    | .define =>
      readDefine (.element head children)
      return start
    | .div => readParts start children
    | .foreign => return start
    | .inclusion =>
      ReadM.tell (.externalGrammar (((Node.element head children).attribute? "href").getD ""))
      return start
    | other =>
      ReadM.tell (.unexpectedInGrammar other.title)
      return start
  | _ => return start

def readParts (start : Option ElementPattern) : List Node → ReadM (Option ElementPattern)
  | [] => return start
  | n :: ns => do
    let start ← readPart start n
    readParts start ns

end

/-- Reads a grammar, or a single element pattern, and gives the wrapper around
    its start. -/
def read : Node → ReadM ElementPattern
  | .element head children => do
    match Construct.ofHead head with
    | .grammar =>
      match ← readParts none children with
      | some start => return start
      | none => throw .missingStart
    | .element => readPattern {} {} (.element head children)
    | _ => throw (.unsupportedRoot head.name)
  | _ => throw (.unsupportedRoot "")

end Bindery.Schema.RelaxNg

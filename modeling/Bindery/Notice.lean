/-
  What the program tells about its work.

  A `Notice` says what was met or decided; `Notice.severity` tells a warning
  from a remark on progress, and `Notice.message` words it.  Notices are
  collected in the order in which they arise.
-/
import Bindery.Text.Quoted

namespace Bindery

open Text (quote)

inductive Severity where
  | debug
  | info
  | warning
  | error
deriving DecidableEq, Repr, Inhabited

def Severity.label : Severity → String
  | debug => "DEBUG"
  | info => "INFO"
  | warning => "WARN"
  | error => "ERROR"

inductive Notice where
  -- Reading a grammar
  | parsing (dialect : String)
  | definition (name : String) (elements attributes references : Nat)
  | unknownDataType (name : String)
  | externalGrammar (href : String)
  | unexpectedInGrammar (what : String)
  | unsupportedPattern (tag within : String)
  | unknownPattern (tag within : String)
  | nestedInAttribute (name : String)
  | severalReferences (name used : String)
  -- Reading a schema
  | externalSchema (tag location : String)
  | ignoredTopLevel (tag : String)
  | wildcard (within : String)
  | unknownParticle (tag within : String)
  | unknownInType (tag within : String)
  | anyAttribute (within : String)
  | selfDerived (name : String)
  | unionType
  -- Resolving references
  | recursiveReference (name within : String)
  | undefinedReference (name within : String)
  | undefinedValue (name value : String)
  -- Building a document
  | droppedReference (name within : String)
  | differing (name identifier : String)
  | building (identifier : String)
  | repeatedAttribute (identifier : String)
  | built (elements attributes : Nat)
  -- Planning classes
  | noElement (identifier : String)
  | replacedClass (name identifier previous : String)
  | keptClass (name identifier previous : String)
  | creatingClass (name identifier : String)
  | droppedElement (identifier : String)
  | droppedAlternative (identifier : String)
  | droppedAttribute (identifier : String)
  -- Running
  | wrote (classes : Nat) (path : String)
  | failed (message : String)
deriving DecidableEq, Repr

namespace Notice

def severity : Notice → Severity
  | parsing .. | definition .. | unknownDataType .. | ignoredTopLevel .. | anyAttribute ..
  | unionType | recursiveReference .. | differing .. | building .. | repeatedAttribute ..
  | built .. | keptClass .. | creatingClass .. => .debug
  | wrote .. => .info
  | failed .. => .error
  | _ => .warning

def message : Notice → String
  | parsing dialect => s!"Parsing {dialect} grammar"
  | definition name es as rs =>
    s!"Parsed definition {quote name} ({es} elements, {as} attributes, {rs} references)"
  | unknownDataType name => s!"Unknown datatype {quote name}, falling back to string"
  | externalGrammar href =>
    s!"Skipping <include href={quote href}>, external grammars are not supported"
  | unexpectedInGrammar what => s!"Skipping unexpected {what} at grammar level"
  | unsupportedPattern tag within => s!"Skipping unsupported <{tag}> inside {quote within}"
  | unknownPattern tag within => s!"Skipping unknown pattern <{tag}> inside {quote within}"
  | nestedInAttribute name => s!"Ignoring nested elements/attributes in attribute {quote name}"
  | severalReferences name used =>
    s!"Attribute {quote name} refers to several definitions, only {quote used} is used"
  | externalSchema tag location =>
    s!"Skipping <{tag}> of {quote location}, external schemas are not supported"
  | ignoredTopLevel tag => s!"Ignoring top-level <{tag}>"
  | wildcard within => s!"Skipping wildcard <any> in {quote within}"
  | unknownParticle tag within => s!"Skipping unknown particle <{tag}> in {quote within}"
  | unknownInType tag within => s!"Skipping <{tag}> in complex type {quote within}"
  | anyAttribute within => s!"Ignoring <anyAttribute> in {quote within}"
  | selfDerived name =>
    s!"Simple type {quote name} is derived from itself, treating it as string"
  | unionType => "Union simple types are mapped to string"
  | recursiveReference name within =>
    s!"Keeping recursive reference {quote name} in {quote within}"
  | undefinedReference name within => s!"Reference to undefined {quote name} in {quote within}"
  | undefinedValue name value =>
    s!"Attribute {quote name} refers to undefined {quote value}, treating it as text"
  | droppedReference name within =>
    s!"Dropping reference to undefined {quote name} in {quote within}"
  | differing name identifier =>
    s!"Element {quote name} differs from the earlier ones, building it as {quote identifier}"
  | building identifier => s!"Building element {quote identifier}"
  | repeatedAttribute identifier => s!"Ignoring repeated attribute {quote identifier}"
  | built es as => s!"Built document with {es} elements and {as} attributes"
  | noElement identifier => s!"No element {quote identifier} in the document"
  | replacedClass name identifier previous =>
    s!"Class {name} for {quote identifier} replaces the one for {quote previous}"
  | keptClass name identifier previous =>
    s!"Keeping class {name} for {quote previous}, skipping {quote identifier}"
  | creatingClass name identifier => s!"Creating class {name} for {quote identifier}"
  | droppedElement identifier => s!"Dropping unknown element {quote identifier}"
  | droppedAlternative identifier => s!"Dropping unknown alternative {quote identifier}"
  | droppedAttribute identifier => s!"Dropping unknown attribute {quote identifier}"
  | wrote classes path => s!"Wrote {classes} classes to {path}"
  | failed message => message

end Notice

end Bindery

/-
  The grammar languages, and reading a schema in any of them.

  `readGrammar` reads a document into a grammar, `readDocument` a text into
  the document of its grammar.  What there is to tell is given also when
  reading fails.
-/
import Bindery.Markup.Reader
import Bindery.Schema.Build
import Bindery.Schema.RelaxNg
import Bindery.Schema.Resolve
import Bindery.Schema.Xsd

namespace Bindery.Schema

open Markup (Node)

inductive Dialect where
  | relaxNg
  | xsd
  | wsdl
deriving DecidableEq, Repr, Inhabited

namespace Dialect

def ofRoot? (root : Node) : Option Dialect :=
  match root.name with
  | "grammar" | "element" => some relaxNg
  | "schema" => some xsd
  | "definitions" => some wsdl
  | _ => none

def ofName? (name : String) : Option Dialect :=
  match name.map Char.toLower with
  | "relaxng" | "rng" => some relaxNg
  | "xsd" => some xsd
  | "wsdl" => some wsdl
  | _ => none

def unknownMessage (name : String) : String :=
  s!"unknown schema dialect {Text.quote (name.map Char.toLower)}"

def name : Dialect → String
  | relaxNg => "relaxng"
  | xsd => "xsd"
  | wsdl => "wsdl"

def reader : Dialect → Node → ReadM ElementPattern
  | relaxNg => RelaxNg.read
  | xsd => Xsd.read
  | wsdl => Xsd.readDescription

end Dialect

/-- What a step comes to, and what there is to tell about it. -/
abbrev Told (α : Type) := Except SchemaError α × List Notice

/-- Reads the grammar with the root element `root`, in the language given or
    the one that its name tells. -/
def readGrammar (dialect : Option Dialect) (root : Node) : Told Grammar :=
  match dialect <|> Dialect.ofRoot? root with
  | none => (.error (.unsupportedRoot root.name), [])
  | some dialect =>
    let (result, reading) := (dialect.reader root).run {}
    (result.map fun start => { start, definitions := reading.definitions },
      .parsing dialect.name :: reading.notices)

def buildDocument (g : Grammar) : Told Document :=
  let (document, notices) := g.build
  match document.validate with
  | .error e => (.error e, notices)
  | .ok () =>
    (.ok document, notices ++ [.built document.elements.size document.attributes.size])

def readSchema (dialect : Option Dialect) (root : Node) : Told Document :=
  match readGrammar dialect root with
  | (.error e, notices) => (.error e, notices)
  | (.ok grammar, notices) =>
    let (resolved, further) := grammar.resolve
    let (document, last) := buildDocument resolved
    (document, notices ++ further ++ last)

def readRoot (allowDtd : Bool) (text : String) : Except SchemaError Node :=
  (Markup.read allowDtd text).mapError .markup

def readDocument (dialect : Option Dialect) (allowDtd : Bool) (text : String) : Told Document :=
  match readRoot allowDtd text with
  | .error e => (.error e, [])
  | .ok root => readSchema dialect root

end Bindery.Schema

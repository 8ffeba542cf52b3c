/-
  The code of planned classes.
-/
import Bindery.Code.Body
import Bindery.Code.Model
import Bindery.Source.Reader
import Bindery.Binding.Plan

namespace Bindery.Code

open Binding

/-- What is generated, and how it refers to the runtime library. -/
structure Options where
  policy : ConflictPolicy := .replace
  rootFunctions : Bool := true
  /-- The path of the runtime library in the generated source. -/
  runtime : String := "sb_builtins"
  module : Option String := none
deriving DecidableEq, Repr, Inhabited

/-! ## Functions -/

/-- How a value is lent: its type, and whether it is reached through the type
    that owns it. -/
def lent (s : Slot) : String × Bool :=
  match s.place with
  | .attr _ type | .text type | .child _ type =>
    match type with
    | .scalar d => if scalarText d = "String" then ("&str", true) else ("&" ++ scalarText d, false)
    | .enumeration e => if e.combinable then (s!"&[{e.name}]", true) else ("&" ++ e.name, false)
    | .object name true =>
      if s.boxed?.isSome then ("&" ++ name, true) else (s!"&Box<{name}>", false)
    | .object name false => ("&" ++ name, false)
  | .choice union _ _ => ("&" ++ union, false)

def getter (s : Slot) : Function :=
  let self := units "self ." ++ [spell s.member]
  let (type, deref) := lent s
  let (returns, body) := match s.cardinality with
    | .one => (type, "&" :: self)
    | .optional => (s!"Option<{type}>", self ++ units (if deref then ". as_deref ()" else ". as_ref ()"))
    | .list => (s!"&[{s.typeText}]", "&" :: self)
  { name := s.member, returns := some returns, body := Units.text body, isConst := true }

def setter (s : Slot) : Function :=
  let self := units "self ." ++ [spell s.member]
  let name := "set_" ++ s.member
  let (argument, body) := match s.cardinality, s.boxed? with
    | .one, _ => (("value", s.typeText), units "= value ;")
    | .optional, some inner => (("value", s!"Option<{inner}>"), units "= value . map (Box :: new) ;")
    | .optional, none => (("value", s!"Option<{s.typeText}>"), units "= value ;")
    | .list, _ => (("values", s!"Vec<{s.typeText}>"), units "= values ;")
  { name, arguments := [argument], body := Units.text (self ++ body) }

def accessors (s : Slot) : List Function :=
  let adder : Function := {
    name := "add_" ++ s.item, arguments := [("value", s.typeText)]
    body := Units.text (units "self ." ++ [spell s.member] ++ units ". push (value) ;") }
  [getter s, setter s] ++ if s.cardinality = .list then [adder] else []

/-- The conversions of an enumeration.  Unknown texts become the invalid
    variant, which in turn is written as the empty text. -/
def conversions (e : Enumeration) : List Function :=
  let variant (name : String) : Units := [spell e.name, "::", spell name]
  let cases (arms : List Units) : String :=
    Units.text (units "match value" ++ [braces (arms.flatMap (· ++ [","]))])
  [{ name := e.fromString, arguments := [("value", "&str")], returns := some e.name
     body := cases (e.variants.map (fun (name, value) => literal value :: "=>" :: variant name) ++
      ["_" :: "=>" :: variant invalidVariant])
     isStatic := true },
   { name := e.toString, arguments := [("value", e.name)], returns := some "&'static str"
     body := cases (e.variants.map (fun (name, value) => variant name ++ ["=>", literal value]) ++
      [variant invalidVariant ++ ["=>", literal ""]])
     isStatic := true }]

def rootFunctions (runtime : String) (rt : Units) : List Function :=
  let calls (name args : String) : String := Units.text (rt ++ ["::", name, args])
  [{ name := "parse_string", arguments := [("text", "&str")]
     returns := some s!"Result<Self, {runtime}::Error>", body := calls "from_str" "(text)"
     isStatic := true, documentation := some "Reads an instance document from `text`." },
   { name := "parse_file", arguments := [("path", "&std::path::Path")]
     returns := some s!"Result<Self, {runtime}::Error>", body := calls "from_file" "(path)"
     isStatic := true },
   { name := "write_string", returns := some s!"Result<String, {runtime}::Error>"
     body := calls "to_string" "(self)", isConst := true },
   { name := "write_file", arguments := [("path", "&std::path::Path")]
     returns := some s!"Result<(), {runtime}::Error>", body := calls "to_file" "(self , path)"
     isConst := true
     documentation := some "Writes the document, including the XML declaration." }]

def elementFunctions (runtime : String) (rt : Units) (c : Binding.Class) : List Function :=
  [{ name := "marshal", arguments := [("writer", s!"&mut {runtime}::Writer")]
     returns := some s!"Result<(), {runtime}::Error>", body := Units.text (marshalBody rt c)
     isConst := true, implements := some s!"{runtime}::Element" },
   { name := "demarshal", arguments := [("node", s!"{runtime}::Node<'_, '_>")]
     returns := some s!"Result<Self, {runtime}::Error>", body := Units.text (demarshalBody rt c)
     isStatic := true, implements := some s!"{runtime}::Element" }]

/-! ## Classes -/

def enumOf (e : Enumeration) : Enum :=
  { name := e.name, values := e.values, combinable := e.combinable
    documentation := some s!"Values of `{e.label}`." }

def unionOf (union group : String) (alternatives : List Alternative) : Union :=
  { name := union, variants := alternatives.map fun a => (a.name, a.type.text)
    documentation := some s!"Alternatives of `{group}`." }

def classOf (runtime : String) (rt : Units) (c : Binding.Class) : Class :=
  { name := c.name, module := c.module
    documentation := some s!"Binding for the `<{c.tag}>` element."
    bases := [s!"{runtime}::Element"]
    members := c.slots.map fun s => { name := s.member, type := s.memberText }
    functions := c.slots.flatMap accessors ++ c.enumerations.flatMap conversions ++
      (if c.root then rootFunctions runtime rt else []) ++ elementFunctions runtime rt c
    enums := c.enumerations.map enumOf
    unions := c.unions.map fun (union, group, alternatives) => unionOf union group alternatives }

def Options.site (o : Options) (d : Schema.Document) : Site :=
  { document := d, policy := o.policy, rootFunctions := o.rootFunctions
    module := o.module.map memberName }

def Options.runtimeUnits (o : Options) : Except GenerateError Units :=
  match Source.pathUnits? o.runtime with
  | some rt => .ok rt
  | none => .error (.runtimePath o.runtime)

/-- The name of the file for a document: that of its first root. -/
def fileName (d : Schema.Document) : String :=
  match d.startElement with
  | some e => e.name
  | none => "schema"

def fileOf (o : Options) (rt : Units) (d : Schema.Document) (classes : List Binding.Class) : File :=
  { name := fileName d
    documentation := some s!"Bindings for the `{fileName d}` schema."
    classes := classes.map (classOf o.runtime rt) }

/-- The code for a document, and what is told on the way. -/
def generate (d : Schema.Document) (o : Options) : Except GenerateError File × List Notice :=
  match o.runtimeUnits with
  | .error fault => (.error fault, [])
  | .ok rt =>
    let (classes, notices) := plan (o.site d)
    (classes.map (fileOf o rt d), notices)

end Bindery.Code

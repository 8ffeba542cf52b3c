/-
  Schemas of XML Schema, and those inside a WSDL description.

  Global elements, named complex types, groups and attribute groups become
  definitions, the last three under names that no element can have.  All
  global elements are starts.  Particles are read into the element they stand
  in, with their occurrence bounds as modifiers; simple types are resolved
  where they are used.
-/
import Bindery.Text.Blank
import Bindery.Schema.SimpleType

namespace Bindery.Schema.Xsd

open Markup (Node Head)

structure Simple where
  nodes : Table Node := {}
  /-- Those resolved. -/
  known : Table SimpleType := {}

abbrev XsdM := StateT Simple ReadM

def tell (n : Notice) : XsdM Unit :=
  ReadM.tell n

/-- A result that does not depend on what was gathered. -/
def ofExcept {α : Type} (r : Except SchemaError α) : XsdM α :=
  ReadM.ofExcept r

/-- A step that resolves simple types, given those declared. -/
def resolving {α : Type} (step : Table Node → SimpleM α) : XsdM α := do
  let s ← get
  let (a, t) := step s.nodes { known := s.known }
  set { s with known := t.known }
  for n in t.notices do tell n
  return a

def simpleNamed (context : Node) (name : String) : XsdM (Option SimpleType) :=
  resolving fun nodes => named nodes [] context name

def simpleType (n : Node) : XsdM SimpleType :=
  resolving fun nodes => simpleTypeWith (named nodes []) n

/-! ## Names of definitions -/

def typeKey (name : String) : String := "type:" ++ name

def groupKey (name : String) : String := "group:" ++ name

def attributeGroupKey (name : String) : String := "attributeGroup:" ++ name

/-! ## Occurrence -/

/-- The number of 64 bits written in decimal digits, after an optional plus
    sign. -/
def readCount (s : String) : Option Nat :=
  let digits := match s.toList with
    | '+' :: cs => cs
    | cs => cs
  let n := digits.foldl (fun n c => n * 10 + (c.toNat - 48)) 0
  if digits.isEmpty || !digits.all Char.isDigit || n ≥ Nat.pow 2 64 then none else some n

def boundOf (n : Node) (value : String) : Except SchemaError Nat :=
  match readCount (Text.trim value) with
  | some count => .ok count
  | none => .error (.invalidOccurs value n.pos)

/-- The modifiers that `minOccurs` and `maxOccurs` stand for. -/
def occursPattern (n : Node) : Except SchemaError Pattern := do
  let least ← match n.attribute? "minOccurs" with
    | some value => boundOf n value
    | none => .ok 1
  let many ← match n.attribute? "maxOccurs" with
    | some value =>
      if Text.trim value = "unbounded" then .ok true
      else (decide <| · > 1) <$> boundOf n value
    | none => .ok false
  match least, many with
  | 0, false => .ok { optional := true }
  | 0, true => .ok { zeroOrMore := true }
  | _, true => .ok { oneOrMore := true }
  | _, false => .ok {}

/-! ## Attributes -/

def refer (target : ElementPattern) (name : String) (pattern : Pattern := {}) : ElementPattern :=
  { target with references := target.references ++ [{ name, pattern }] }

def readAttribute (n : Node) : XsdM (Option AttributePattern) := do
  if n.attribute? "use" = some "prohibited" then return none
  let pattern : Pattern := if n.attribute? "use" = some "required" then {} else { optional := true }
  let name ← ofExcept <| match n.attribute? "name", n.attribute? "ref" with
    | some name, _ => .ok name
    | none, some ref => .ok (localName ref)
    | none, none => .error (.missingName n.name n.pos)
  let type ← match n.attribute? "type", n.child? "simpleType" with
    | some type, _ => simpleNamed n type
    | none, some child => some <$> simpleType child
    | none, none => pure none
  return some { AttributePattern.under name pattern with
    dataType := type.map (·.dataType)
    facet := type.bind (·.facet) }

def readAttributes (target : ElementPattern) : List Node → XsdM ElementPattern
  | [] => return target
  | n :: ns => do
    let target ← match n.name with
      | "attribute" =>
        match ← readAttribute n with
        | some a => pure { target with attributes := target.attributes ++ [a] }
        | none => pure target
      | "attributeGroup" => do
        let ref ← ofExcept (requiredAttribute n "ref")
        pure (refer target (attributeGroupKey (localName ref)))
      | "anyAttribute" => do
        tell (.anyAttribute target.name)
        pure target
      | _ => pure target
    readAttributes target ns

/-! ## Elements and types -/

def withText (e : ElementPattern) (type : SimpleType) : ElementPattern :=
  { e with hasText := true, dataType := some type.dataType, facet := type.facet }

/-- Reads the declaration of an element that occurs under `pattern`;
    `complexType` reads the complex type among its children. -/
def readElement (complexType : ElementPattern → XsdM ElementPattern) (pattern : Pattern)
    (n : Node) : XsdM ElementPattern := do
  let name ← ofExcept (requiredAttribute n "name")
  let element : ElementPattern := { name, pattern }
  match n.attribute? "type" with
  | some type =>
    match ← simpleNamed n type with
    | some simple => return withText element simple
    | none => return refer element (typeKey (localName type))
  | none =>
    if (n.child? "complexType").isSome then complexType element
    else
      match n.child? "simpleType" with
      | some child => return withText element (← simpleType child)
      -- any type
      | none => return { element with hasText := true }

/-- The element with text if the attribute `mixed` of `n` says so. -/
def markMixed (n : Node) (target : ElementPattern) : ElementPattern :=
  if n.attribute? "mixed" = some "true" then { target with hasText := true } else target

def readSimpleDerivation (target : ElementPattern) (n : Node) : XsdM ElementPattern := do
  let target := { target with hasText := true }
  let target ← match n.attribute? "base" with
    | some base => do
      match ← simpleNamed n base with
      | some simple => pure (withText target simple)
      | none => pure (refer target (typeKey (localName base)))
    | none => pure target
  let target := { target with facet := enumerationFacet n <|> target.facet }
  readAttributes target n.children

def readSimpleContent (target : ElementPattern) : List Node → XsdM ElementPattern
  | [] => return target
  | n :: ns => do
    let target ←
      if n.name = "extension" || n.name = "restriction" then readSimpleDerivation target n
      else pure target
    readSimpleContent target ns

mutual

def readParticle (pattern : Pattern) (target : ElementPattern) : Node → XsdM ElementPattern
  | .element head children => do
    let node : Node := .element head children
    match head.name with
    | "element" =>
      let pattern := pattern.merge (← ofExcept (occursPattern node))
      match node.attribute? "ref" with
      | some ref => return refer target (localName ref) pattern
      | none =>
        let element ← readElement (fun e => readTypeChild e children) pattern node
        return { target with elements := target.elements ++ [element] }
    | "sequence" | "all" =>
      let pattern := pattern.merge (← ofExcept (occursPattern node))
      readParticles pattern target children
    | "choice" =>
      let group ← (ReadM.nextChoice : XsdM Nat)
      let pattern := (pattern.merge (← ofExcept (occursPattern node))).inChoice group
      readParticles pattern target children
    | "group" =>
      let pattern := pattern.merge (← ofExcept (occursPattern node))
      let ref ← ofExcept (requiredAttribute node "ref")
      return refer target (groupKey (localName ref)) pattern
    | "annotation" => return target
    | "any" =>
      tell (.wildcard target.name)
      return target
    | tag =>
      tell (.unknownParticle tag target.name)
      return target
  | _ => return target

def readParticles (pattern : Pattern) (target : ElementPattern) :
    List Node → XsdM ElementPattern
  | [] => return target
  | n :: ns => do
    let target ← readParticle pattern target n
    readParticles pattern target ns

def readTypeChild (target : ElementPattern) : List Node → XsdM ElementPattern
  | [] => return target
  | n :: ns =>
    if n.name = "complexType" then readType target n else readTypeChild target ns

def readType (target : ElementPattern) : Node → XsdM ElementPattern
  | .element head children => do
    let target := markMixed (.element head children) target
    let target ← readTypeParts target children
    readAttributes target children
  | _ => return target

def readTypeParts (target : ElementPattern) : List Node → XsdM ElementPattern
  | [] => return target
  | n :: ns => do
    let target ← match n.name with
      | "sequence" | "choice" | "all" | "group" => readParticle {} target n
      | "simpleContent" => readSimpleContent target n.children
      | "complexContent" => readComplexContent target n
      | "attribute" | "attributeGroup" | "anyAttribute" | "annotation" => pure target
      | tag => do
        if n.isElement then tell (.unknownInType tag target.name)
        pure target
    readTypeParts target ns

def readComplexContent (target : ElementPattern) : Node → XsdM ElementPattern
  | .element head children =>
    readDerivations (markMixed (.element head children) target) children
  | _ => return target

/-- Reads the derivations of a complex content.  A restriction restates the
    content it keeps. -/
def readDerivations (target : ElementPattern) : List Node → XsdM ElementPattern
  | [] => return target
  | n :: ns => do
    let target ← match n.name with
      | "extension" => do
        let key := localName (← ofExcept (requiredAttribute n "base"))
        readType (if key = "anyType" then target else refer target (typeKey key)) n
      | "restriction" => readType target n
      | _ => pure target
    readDerivations target ns

end

/-! ## Schemas -/

def noteSimpleTypes : List Node → XsdM Unit
  | [] => return
  | n :: ns => do
    if n.name = "simpleType" then
      let name ← ofExcept (requiredAttribute n "name")
      modify fun s => { s with nodes := s.nodes.insert name n }
    noteSimpleTypes ns

/-- Reads a declaration of a schema.  `start` refers to the global elements
    so far. -/
def readGlobal (start : ElementPattern) : Node → XsdM ElementPattern
  | .element head children => do
    let node : Node := .element head children
    match head.name with
    | "element" =>
      let name ← ofExcept (requiredAttribute node "name")
      let element ← readElement (fun e => readTypeChild e children) {} node
      ReadM.define name { name, elements := [element] }
      return refer start name
    | "complexType" =>
      let name := typeKey (← ofExcept (requiredAttribute node "name"))
      ReadM.define name (← readType { name } node)
      return start
    | "group" =>
      let name := groupKey (← ofExcept (requiredAttribute node "name"))
      ReadM.define name (← readParticles {} { name } children)
      return start
    | "attributeGroup" =>
      let name := attributeGroupKey (← ofExcept (requiredAttribute node "name"))
      ReadM.define name (← readAttributes { name } children)
      return start
    | "simpleType" | "annotation" => return start
    | "import" | "include" | "redefine" | "override" =>
      tell (.externalSchema head.name ((node.attribute? "schemaLocation").getD ""))
      return start
    | tag =>
      tell (.ignoredTopLevel tag)
      return start
  | _ => return start

def readGlobals (start : ElementPattern) : List Node → XsdM ElementPattern
  | [] => return start
  | n :: ns => do
    let start ← readGlobal start n
    readGlobals start ns

def readSchema (start : ElementPattern) (schema : Node) : XsdM ElementPattern := do
  noteSimpleTypes schema.children
  readGlobals start schema.children

def readSchemas (start : ElementPattern) : List Node → XsdM ElementPattern
  | [] => return start
  | n :: ns => do
    let start ← readSchema start n
    readSchemas start ns

def read (schema : Node) : ReadM ElementPattern :=
  (readSchemas {} [schema]).run' {}

def sections (description : Node) : List Node :=
  ((description.children.filter (·.name == "types")).flatMap (·.children)).filter
    (·.name == "schema")

def readDescription (description : Node) : ReadM ElementPattern :=
  (readSchemas {} (sections description)).run' {}

end Bindery.Schema.Xsd

/-
  Simple types of XML Schema.

  A simple type is resolved where it is used, to a scalar type and the values
  that restrict it: a restriction keeps the type of its base and overrides the
  values if it lists any, a list is a string with the values of its items, now
  combinable, and a union is a plain string.

  Named types refer to each other.  A type that is derived from itself is
  treated as a string where the circle closes, so `named` ends: `resolving` are
  the names being resolved, and there is a finite number of others.  Types once
  resolved are kept (`SimpleTypes.known`).
-/
import Bindery.Schema.Reading

namespace Bindery.Schema

open Markup (Node)

def xsUri : String := "http://www.w3.org/2001/XMLSchema"

/-- A simple type: a scalar type and the values that restrict it. -/
structure SimpleType where
  dataType : DataType := .string
  facet : Option Facet := none
deriving DecidableEq, Repr, Inhabited

/-- The simple types resolved so far, and what there is to tell. -/
structure SimpleTypes where
  known : Table SimpleType := {}
  notices : List Notice := []

abbrev SimpleM := StateM SimpleTypes

namespace SimpleM

def tell (n : Notice) : SimpleM Unit :=
  modify fun s => { s with notices := s.notices ++ [n] }

def dataType (name : String) : SimpleM DataType :=
  match DataType.ofName? name with
  | some type => pure type
  | none => do
    tell (.unknownDataType name)
    pure .string

end SimpleM

/-- Whether `name` is a type of XML Schema itself at the element `n`. -/
def isBuiltin (n : Node) (name : String) : Bool :=
  let cs := name.toList
  if ':' ∈ cs then n.uri? (some (String.ofList (cs.takeWhile (· != ':')))) = some xsUri
  else n.uri? none = some xsUri

def enumerationFacet (n : Node) : Option Facet :=
  Facet.proper (some (n.children.foldl (fun facet child =>
    if child.name = "enumeration" then
      match child.attribute? "value" with
      | some value => facet.push value
      | none => facet
    else facet) {}))

/-- What resolves a name used at an element. -/
abbrev Lookup := Node → String → SimpleM (Option SimpleType)

mutual

/-- The simple type that the element declares, with `lookup` for the names in
    it: the first restriction, list or union among its children says it. -/
def simpleTypeWith (lookup : Lookup) : Node → SimpleM SimpleType
  | .element _ children => derivation lookup children
  | _ => pure {}

def derivation (lookup : Lookup) : List Node → SimpleM SimpleType
  | [] => pure {}
  | .element head children :: rest =>
    let node : Node := .element head children
    match head.name with
    | "restriction" => do
      let base ←
        match node.attribute? "base" with
        | some base => (·.getD {}) <$> lookup node base
        | none => inlineType lookup children
      pure { base with facet := enumerationFacet node <|> base.facet }
    | "list" => do
      let item ←
        match node.attribute? "itemType" with
        | some item => (·.getD {}) <$> lookup node item
        | none => inlineType lookup children
      pure { facet := item.facet.map ({ · with combinable := true }) }
    | "union" => do
      SimpleM.tell .unionType
      pure {}
    | _ => derivation lookup rest
  | _ :: rest => derivation lookup rest

def inlineType (lookup : Lookup) : List Node → SimpleM SimpleType
  | [] => pure {}
  | n :: ns => if n.name = "simpleType" then simpleTypeWith lookup n else inlineType lookup ns

end

/-- The simple type with the name `name` at the element `context`, unless that
    is a complex type.  `nodes` are the declared simple types, and `resolving`
    those being resolved. -/
def named (nodes : Table Node) (resolving : List String) (context : Node) (name : String) :
    SimpleM (Option SimpleType) :=
  let key := localName name
  if isBuiltin context name then
    if key = "anyType" then pure none
    else do
      let dataType ← SimpleM.dataType key
      pure (some { dataType })
  else do
    match (← get).known.get? key with
    | some type => pure (some type)
    | none =>
      match _h : nodes.get? key with
      | none => pure none
      | some node =>
        if _hr : key ∈ resolving then do
          SimpleM.tell (.selfDerived key)
          pure (some {})
        else do
          let type ← simpleTypeWith (fun c n => named nodes (key :: resolving) c n) node
          modify fun s => { s with known := s.known.insert key type }
          pure (some type)
termination_by remaining nodes.keys resolving
decreasing_by exact remaining_cons_lt (Table.mem_keys_of_get? _h) _hr

end Bindery.Schema

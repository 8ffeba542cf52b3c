/-
  The source of a file of generated code.

  Classes are written in order: their enumerations, their unions, the class
  itself, its own functions and then those of its base classes.  Classes of a
  module are gathered in it, after those of none.
-/
import Bindery.Error
import Bindery.Table
import Bindery.Code.Model
import Bindery.Code.Units
import Bindery.Source.Layout
import Bindery.Source.Reader

namespace Bindery.Source

open Code (spell)

/-- What the source begins with. -/
structure RenderOptions where
  /-- Whether the source is a module of its own, with attributes. -/
  moduleAttributes : Bool := true
deriving DecidableEq, Repr, Inhabited

abbrev Render := Except GenerateError

def identify (name : String) : Render String :=
  if Code.isLegal name then .ok (spell name) else .error (.illegalName name)

/-- The identifier for the name of an item, a variant or a function, which a
    lone `_` is not. -/
def identifyItem (name : String) : Render String :=
  if name = "_" then .error (.illegalName name) else identify name

def typeDocs (text : String) : Render (List Doc) :=
  match readType? text with
  | some t => .ok (layout (.whole false) t)
  | none => .error (.invalidType text)

/-! ## Documentation -/

def docs (doc : Option String) : List Doc :=
  match doc with
  | some d => documentation false (" " ++ d)
  | none => []

/-! ## Items -/

def derive (names : String) : List Doc := [.text s!"#[derive({names})]", blankBreak]

/-- The enumeration.  Flags have explicit bits as long as they fit. -/
def enumDocs (e : Code.Enum) : Render (List Doc) := do
  let name ← identify e.name
  let flags := e.combinable && e.variants.length < 63
  let variants ← e.variants.mapM fun (v, _) => identify v
  if name = "_" || variants.contains "_" then throw (.illegalName "_")
  let invalid := [.text "#[default]", blankBreak, .text Code.invalidVariant,
    .text (if flags then " = 0," else ","), hardBreak]
  let rest := variants.mapIdx fun i v =>
    .text v :: (if flags then .text " = " ::
      ibox step (ibox (-step) (txt "1") ++ [blankBreak, .text "<<", .text " ", .text s!"{i}"])
      else []) ++ [.text ",", hardBreak]
  return docs e.documentation ++ derive "Debug, Clone, Copy, PartialEq, Eq, Hash, Default" ++
    braced (txt s!"pub enum {name} ") (invalid ++ rest.flatten)

def unionDocs (u : Code.Union) : Render (List Doc) := do
  let name ← identify u.name
  let variants ← u.variants.mapM fun (v, type) => do
    let v ← identify v
    return (v, ← typeDocs type)
  if name = "_" || variants.any (·.1 == "_") then throw (.illegalName "_")
  let body := variants.flatMap fun (v, type) =>
    .text v :: cbox step (unnamedDocs [type]) ++ [.text ",", hardBreak]
  return docs u.documentation ++ derive "Debug, Clone, PartialEq" ++
    braced (txt s!"pub enum {name} ") body

def structDocs (c : Code.Class) : Render (List Doc) := do
  let name ← identify c.name
  let fields ← c.members.mapM fun m => do
    let field ← identify m.name
    let type ← typeDocs m.type
    return docs m.documentation ++ .text s!"{field}: " :: type ++ [.text ",", hardBreak]
  if name = "_" then throw (.illegalName "_")
  return docs c.documentation ++ derive "Debug, Clone, Default, PartialEq" ++
    braced (txt s!"pub struct {name} ") fields.flatten

/-- A function; those of base classes say nothing of who may see them. -/
def functionDocs (inherent : Bool) (f : Code.Function) : Render (List Doc) := do
  let name ← identify f.name
  let arguments ← f.arguments.mapM fun (a, type) => do
    let a ← identify a
    return .text s!"{a}: " :: (← typeDocs type)
  let output ← match f.returns with
    | some type => some <$> typeDocs type
    | none => pure none
  let body ← match readBody? f.body with
    | some body => pure body
    | none => throw (.invalidBody f.name)
  let receiver := if f.isStatic then [] else [txt (if f.isConst then "&self" else "&mut self")]
  let visibility := if inherent && f.isPublic then "pub fn " else "fn "
  return docs f.documentation ++
    braced (signatureDocs (txt (visibility ++ name)) (commas (receiver ++ arguments)) output ++
      txt " ") (statements body)

def requireNames (fs : List Code.Function) : Render Unit :=
  if fs.any (·.name == "_") then .error (.illegalName "_") else .ok ()

/-- The functions of a class that belong to the base class `base`, or to none,
    in a block with the given head. -/
def implDocs (c : Code.Class) (head : List Doc) (base : Option String) :
    Render (List Doc × Bool) := do
  let fs := c.functions.filter (·.implements == base)
  let bodies ← fs.mapM (functionDocs base.isNone)
  requireNames fs
  return (braced (implementationHead (txt "impl") none head ++ txt " ") bodies.flatten, fs.isEmpty)

def classDocs (c : Code.Class) : Render (List Doc) := do
  let enums ← c.enums.mapM enumDocs
  let unions ← c.unions.mapM unionDocs
  let own ← structDocs c
  let name ← identify c.name
  let (inherent, isEmpty) ← implDocs c (txt name) none
  let bases ← c.bases.mapM fun base => do
    match readPath? base with
    | some path =>
      let (ds, _) ← implDocs c (layout (.whole false) path ++ [blankBreak, .text "for ", .text name])
        (some base)
      return ds
    | none => throw (.invalidType base)
  return enums.flatten ++ unions.flatten ++ own ++ (if isEmpty then [] else inherent) ++ bases.flatten

/-! ## Files -/

def addItems (modules : Table (List Doc)) (name : String) (items : List Doc) : Table (List Doc) :=
  modules.insert name ((modules.get? name).getD [] ++ items)

def headerDocs (doc : Option String) : List Doc :=
  documentation true "Generated by sb-generator 0.1.0" ++
    (match doc with
      | some d => documentation true "" ++ documentation true (" " ++ d)
      | none => []) ++
    [.text "#![allow(dead_code, unused_imports)]", blankBreak]

def render (f : Code.File) (o : RenderOptions) : Render String := do
  let (items, modules) ← f.classes.foldlM (fun ((items, modules) : List Doc × Table (List Doc)) c => do
    let ds ← classDocs c
    match c.module with
    | some name => return (items, addItems modules name ds)
    | none => return (items ++ ds, modules)) ([], {})
  let modules ← modules.entries.mapM fun (name, ds) => do
    let name ← identifyItem name
    return braced (txt s!"pub mod {name} ") (.text "use super::*;" :: hardBreak :: ds)
  let header := if o.moduleAttributes then headerDocs f.documentation else []
  let docs := cbox 0 (header ++ items ++ modules.flatten)
  if hasGap docs then throw .unsetForm
  return pretty docs

end Bindery.Source

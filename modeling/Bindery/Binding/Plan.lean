/-
  Planning the classes of a document.

  Every element that is not text-only becomes a class.  Classes are made depth
  first, so that a class comes after the classes its members refer to, except
  along a cycle, where the member that closes the cycle is boxed.

  `createClass` makes the class of one element and of all that is reached from
  it.  `path` holds the elements whose classes are being made; it never holds
  one twice, so that fewer elements remain outside it at every step and the
  recursion ends.  What was made before an error is kept.  The slots of a class
  are made by functions that ask for the path (`inProgress`) where they need it,
  and call back for other classes (`create`).
-/
import Bindery.Error
import Bindery.Notice
import Bindery.Binding.Slot
import Bindery.Schema.Document

namespace Bindery.Binding

open Schema Text
open Code (className memberName unique)

/-- What to do when two elements want one class name. -/
inductive ConflictPolicy where
  /-- The class made last wins. -/
  | replace
  /-- The class made first wins. -/
  | keep
  /-- Nothing is generated. -/
  | error
deriving DecidableEq, Repr, Inhabited

/-- What a plan is made for. -/
structure Site where
  document : Document
  policy : ConflictPolicy := .replace
  /-- Whether the classes of roots read and write whole documents. -/
  rootFunctions : Bool := true
  /-- The module that holds every class. -/
  module : Option String := none

/-- What has been made so far. -/
structure Planning where
  classes : Table Class := {}
  /-- The element each class name was taken for. -/
  owners : Table String := {}
  /-- The type names of the file that are taken: those of all classes to come,
      and those of the enumerations and unions made so far. -/
  typeNames : List String := []
  notices : List Notice := []

/-- Planning, on top of what `m` does.  The state is kept on errors. -/
abbrev PlanT (m : Type → Type) := ExceptT GenerateError (StateT Planning m)

abbrev PlanM := PlanT Id

def Planning.start (d : Document) : Planning :=
  { typeNames := (d.elements.values.filter (!·.isTextOnly)).map (className ·.name) }

section
variable {m : Type → Type} [Monad m]

def tell (n : Notice) : PlanT m Unit :=
  modify fun p => { p with notices := p.notices ++ [n] }

/-- Takes `base`, or `base` with the smallest free number, as a type name. -/
def takeTypeName (base : String) : PlanT m String := do
  let name := unique (← get).typeNames base
  modify fun p => { p with typeNames := name :: p.typeNames }
  pure name

/-- Fails at the first name that cannot be written. -/
def requireLegal (names : List String) : PlanT m Unit :=
  match names.find? (!Code.isLegal ·) with
  | some name => throw (.illegalName name)
  | none => pure ()

/-! ## Slots -/

/-- The type of a scalar in the class `cls`.  A facet that lists values makes
    an enumeration, named after the class and `label`. -/
def scalarType (cls label : String) (dataType : Option DataType) (facet : Option Facet) :
    PlanT m ValueType :=
  match Facet.proper facet with
  | none => pure (.scalar (dataType.getD .string))
  | some f => do
    let name ← takeTypeName (cls ++ pascal label)
    let e : Enumeration := {
      name, label, values := f.values, combinable := f.combinable }
    requireLegal (e.name :: e.variants.map (·.1))
    pure (.enumeration e)

section
variable (d : Document) (inProgress : PlanT m (List String))
  (create : String → PlanT m (Option String)) (cls : String)

/-- The type of one value of the element `target`: a scalar for text-only
    elements, a class otherwise.  The class is boxed when it is still being
    made further up. -/
def childType (label : String) (boxable : Bool) (target : Element) :
    PlanT m (Option ValueType) := do
  if target.isTextOnly then
    return some (← scalarType cls label target.dataType target.facet)
  else
    match ← create target.identifier with
    | some name =>
      return some (.object name (boxable && (← inProgress).contains target.identifier))
    | none => return none

/-- The slot for a relation to a child element, and the member names taken
    after it. -/
def childSlot (taken : List String) (r : Relation) : PlanT m (Option Slot × List String) := do
  match d.elements.get? r.target with
  | none =>
    tell (.droppedElement r.target)
    return (none, taken)
  | some target =>
    let item := memberName target.name
    let member := unique taken (if r.isList then item ++ "_list" else item)
    match ← childType inProgress create cls member (!r.isList) target with
    | none => return (none, member :: taken)
    | some type =>
      let boxed := match type with
        | .object _ boxed => boxed
        | _ => false
      let cardinality :=
        if r.isList then .list else if r.isOptional || boxed then .optional else .one
      return (some ⟨member, item, cardinality, .child target.name type⟩, member :: taken)

def alternatives : List Alternative → List Relation → PlanT m (List Alternative)
  | made, [] => pure made
  | made, r :: rs => do
    match d.elements.get? r.target with
    | none =>
      tell (.droppedAlternative r.target)
      alternatives made rs
    | some target =>
      match ← childType inProgress create cls (memberName target.name) true target with
      | none => alternatives made rs
      | some type =>
        let name :=
          if made.any (·.name == className target.name) then s!"Alternative{made.length}"
          else className target.name
        alternatives (made ++ [⟨name, target.name, type⟩]) rs

/-- The slot that holds whichever alternative of the choice `group` is
    present, and the member names taken after it. -/
def choiceSlot (taken : List String) (group : String) (all : List Relation) :
    PlanT m (Option Slot × List String) := do
  let relations := all.filter (·.choice == some group)
  let list := relations.any (·.isList)
  let union ← takeTypeName (cls ++ "Choice")
  match ← alternatives d inProgress create cls [] relations with
  | [] => return (none, taken)
  | made =>
    let member := unique taken (if list then "choice_list" else "choice")
    return (some ⟨member, "choice", if list then .list else .optional, .choice union group made⟩,
      member :: taken)

/-- The slots for the relations to child elements, one for each choice, and
    the member names taken after them. -/
def elementSlots (all : List Relation) :
    List String → List String → List Relation → PlanT m (List Slot × List String)
  | _, taken, [] => pure ([], taken)
  | groups, taken, r :: rs => do
    match r.choice with
    | some group =>
      if group ∈ groups then
        elementSlots all groups taken rs
      else
        let (slot, taken) ← choiceSlot d inProgress create cls taken group all
        let (slots, taken) ← elementSlots all (group :: groups) taken rs
        return (slot.toList ++ slots, taken)
    | none =>
      let (slot, taken) ← childSlot d inProgress create cls taken r
      let (slots, taken) ← elementSlots all groups taken rs
      return (slot.toList ++ slots, taken)

/-- The slots for the relations to attributes, and the member names taken
    after them. -/
def attributeSlots :
    List String → List Relation → PlanT m (List Slot × List String)
  | taken, [] => pure ([], taken)
  | taken, r :: rs => do
    match d.attributes.get? r.target with
    | none =>
      tell (.droppedAttribute r.target)
      attributeSlots taken rs
    | some a =>
      let base := memberName a.name
      let member := unique taken (if base ∈ taken then base ++ "_attr" else base)
      let type ← scalarType cls member a.dataType a.facet
      let cardinality := if r.isOptional then .optional else .one
      let (slots, taken) ← attributeSlots (member :: taken) rs
      return (⟨member, member, cardinality, .attr a.name type⟩ :: slots, taken)

end

def textSlot (cls : String) (taken : List String) (e : Element) : PlanT m (Option Slot) := do
  if e.text then
    let member := unique taken (if "value" ∈ taken then "value_text" else "value")
    return some ⟨member, member, .one, .text (← scalarType cls member e.dataType e.facet)⟩
  else
    return none

/-! ## Classes -/

def buildClass (site : Site) (inProgress : PlanT m (List String))
    (create : String → PlanT m (Option String)) (e : Element) : PlanT m Class := do
  let cls := className e.name
  let (elements, taken) ← elementSlots site.document inProgress create cls e.elementRelations
    [] [] e.elementRelations
  let (attributes, taken) ← attributeSlots site.document cls taken e.attributeRelations
  let text ← textSlot cls taken e
  let made : Class := {
    name := cls, element := e.identifier, tag := e.name, module := site.module
    root := site.rootFunctions && site.document.roots.contains e.identifier
    attributes, text, elements }
  requireLegal (made.slots.flatMap (·.names))
  pure made

/-- Frees the type names that go with a class. -/
def release (name : String) : PlanT m Unit :=
  modify fun p =>
    match p.classes.get? name with
    | some c =>
      let freed := c.enumerations.map (·.name) ++ c.unions.map (·.1)
      { p with typeNames := p.typeNames.filter (· ∉ freed) }
    | none => p

/-- Whether a class is to be made for an element.  There is none to make when
    it has been made before, or when another element has the name and keeps
    it. -/
def claimName (policy : ConflictPolicy) (name identifier : String) : PlanT m Bool := do
  match (← get).owners.get? name with
  | none => return true
  | some previous =>
    if previous = identifier then
      return false
    else
      match policy with
      | .replace =>
        tell (.replacedClass name identifier previous)
        release name
        return true
      | .keep =>
        tell (.keptClass name identifier previous)
        return false
      | .error => throw (.conflict name previous identifier)

end

/-- Makes the class of an element, after the classes that its members refer
    to, and gives its name.  There is no name where the document has no such
    element. -/
def createClass (site : Site) (path : List String) (identifier : String) :
    PlanM (Option String) :=
  match _h : site.document.elements.get? identifier with
  | none => do
    tell (.noElement identifier)
    return none
  | some e => do
    let name := className e.name
    if _hp : identifier ∈ path then
      return some name
    else
      if ← claimName site.policy name identifier then
        tell (.creatingClass name identifier)
        modify fun p => { p with owners := p.owners.insert name identifier }
        let made ← buildClass site (pure (identifier :: path))
          (createClass site (identifier :: path)) e
        modify fun p => { p with classes := p.classes.insert name made }
      return some name
termination_by remaining site.document.elements.keys path
decreasing_by exact remaining_cons_lt (Table.mem_keys_of_get? _h) _hp

def createRoots (site : Site) : PlanM Unit :=
  site.document.roots.forM fun root => discard (createClass site [] root)

/-- The classes of all roots and of what is reached from them, in the order in
    which they are made, and what is told on the way. -/
def plan (site : Site) : Except GenerateError (List Class) × List Notice :=
  let (result, p) := (createRoots site).run (Planning.start site.document)
  (result.map fun _ => p.classes.values, p.notices)

end Bindery.Binding

/-
  Reading a value of a class from an element.

  Attributes and child elements are taken in their order, each to the first
  slot that names it; others are passed over.  A later value replaces an
  earlier one, or is added to a list.
-/
import Bindery.Instance.Convert
import Bindery.Markup.Reader

namespace Bindery.Instance

open Binding Markup

def assigned (s : Slot) (old value : Datum) : Datum :=
  match s.cardinality, old with
  | .one, _ => value
  | .optional, _ => .present value
  | .list, .list ds => .list (ds ++ [value])
  | .list, _ => .list [value]

def attributeType? (name : String) (s : Slot) : Option ValueType :=
  match s.place with
  | .attr tag type => if tag = name then some type else none
  | _ => none

/-- The type of the values of a child element in a slot, and the alternative
    it is, if it is one. -/
def childType? (name : String) (s : Slot) : Option (ValueType × Option String) :=
  match s.place with
  | .child tag type => if tag = name then some (type, none) else none
  | .choice _ _ alternatives =>
    (alternatives.find? (·.tag == name)).map fun a => (a.type, some a.name)
  | _ => none

/-- The value as an alternative, if it is one. -/
def asAlternative (name : Option String) (d : Datum) : Datum :=
  match name with
  | some n => .alternative n d
  | none => d

def findSlot {α : Type} (f : Slot → Option α) (slots : List Slot) : Option (Nat × Slot × α) :=
  match slots with
  | [] => none
  | s :: ss =>
    match f s with
    | some a => some (0, s, a)
    | none => (findSlot f ss).map fun (i, s, a) => (i + 1, s, a)

def putField (i : Nat) (s : Slot) (value : Datum) (fields : List Datum) : List Datum :=
  fields.modify i (assigned s · value)

def readAttributes (slots : List Slot) : List Datum → List Attribute → Except ReadError (List Datum)
  | fields, [] => .ok fields
  | fields, a :: as =>
    match findSlot (attributeType? a.name) slots with
    | some (i, s, type) => do
      let value ← readValue type a.value
      readAttributes slots (putField i s value fields) as
    | none => readAttributes slots fields as

def readText (slots : List Slot) (fields : List Datum) (text : String) :
    Except ReadError (List Datum) :=
  let type? (s : Slot) : Option ValueType := match s.place with
    | .text type => some type
    | _ => none
  match findSlot type? slots with
  | some (i, s, type) => do
    let value ← readValue type text
    .ok (putField i s value fields)
  | none => .ok fields

def expectElement (n : Node) (tag : String) : Except ReadError Unit :=
  if n.isElement && n.name == tag then .ok () else .error (.unexpectedElement tag n.name)

mutual

def readObject (cs : Classes) (name : String) : Node → Except ReadError Datum
  | .element head children =>
    match cs.get? name with
    | none => .ok (.object name [])
    | some c => do
      expectElement (.element head children) c.tag
      let fields ← readAttributes c.slots
        (c.slots.map (initialField (initialObject cs [name]))) head.attributes
      let fields ← readText c.slots fields (Node.element head children).textContent
      let fields ← readChildren cs c.slots fields children
      .ok (.object name fields)
  | n => .error (.unexpectedElement (((cs.get? name).map (·.tag)).getD "") n.name)

def readChildren (cs : Classes) (slots : List Slot) :
    List Datum → List Node → Except ReadError (List Datum)
  | fields, [] => .ok fields
  | fields, n :: ns =>
    if n.isElement then
      match findSlot (childType? n.name) slots with
      | some (i, s, type, alternative) => do
        let value ← match type with
          | .object name _ => readObject cs name n
          | type => readValue type n.textContent
        readChildren cs slots (putField i s (asAlternative alternative value) fields) ns
      | none => readChildren cs slots fields ns
    else readChildren cs slots fields ns

end

def parse (cs : Classes) (name text : String) : Except ReadError Datum := do
  let root ← (Markup.read false text).mapError .markup
  readObject cs name root

end Bindery.Instance

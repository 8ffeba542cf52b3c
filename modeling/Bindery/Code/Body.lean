/-
  The bodies of the functions that write and read a class.

  The bodies refer to the runtime library by `rt`, the units of its path, and
  leave it to type inference to pick the conversion of a value from the member
  that holds it.
-/
import Bindery.Binding.Slot
import Bindery.Code.Units

namespace Bindery.Code

open Binding Text

/-! ## Values -/

def toLiteral (rt : Units) (type : ValueType) (item : Units) : Units :=
  match type with
  | .scalar _ | .object .. => rt ++ units ":: Scalar :: to_literal" ++ [parens item]
  | .enumeration e =>
    if e.combinable then
      item ++ units ". iter () . map" ++
        [parens (units "| flag | Self ::" ++ [spell e.toString, "(* flag)"])] ++
        units ". collect :: < Vec < _ >> () . join" ++ [parens [literal " "]]
    else
      units "Self ::" ++ [spell e.toString, parens ("*" :: item)] ++ units ". to_string ()"

def whitespaceUnits (rt : Units) (w : Whitespace) : Units :=
  rt ++ units ":: Whitespace ::" ++ [match w with
    | .preserve => "Preserve"
    | .replace => "Replace"
    | .collapse => "Collapse"]

def normalized (rt : Units) (w : Whitespace) (item : Units) : Units :=
  "&" :: rt ++ ["::", "normalized_value", parens (item ++ "," :: whitespaceUnits rt w)]

def fromLiteral (rt : Units) (type : ValueType) (item : Units) : Units :=
  match type with
  | .object .. => rt ++ units ":: Scalar :: from_literal" ++ [parens item, "?"]
  | .scalar d =>
    let text := match whitespace d with
      | .preserve => item
      | w => normalized rt w item
    rt ++ units ":: Scalar :: from_literal" ++ [parens text, "?"]
  | .enumeration e =>
    if e.combinable then
      parens item :: units ". split_whitespace () . map" ++
        [parens (units "Self ::" ++ [spell e.fromString])] ++
        units ". collect :: < Vec < _ >> ()"
    else
      units "Self ::" ++ [spell e.fromString, parens (normalized rt .collapse item)]

/-! ## Writing -/

def writeChild (rt : Units) (tag : String) (type : ValueType) : Units :=
  match type with
  | .object .. => rt ++ units ":: Element :: marshal (value , writer) ? ;"
  | _ =>
    units "writer . text_element" ++
      [parens (literal tag :: "," :: "&" :: toLiteral rt type ["value"])] ++ units "? ;"

/-- `statements`, which use `value`, for each value of the slot. -/
def forEach (s : Slot) (statements : Units) : Units :=
  let member := units "& self ." ++ [spell s.member]
  match s.cardinality with
  | .one => units "let value =" ++ member ++ ";" :: statements
  | .optional => units "if let Some (value) =" ++ member ++ [braces statements]
  | .list => units "for value in" ++ member ++ [braces statements]

/-- Stops before anything is written when every list is empty. -/
def emptyGuard (slots : List Slot) : Units :=
  let tests := slots.map fun s => units "self ." ++ [spell s.member] ++ units ". is_empty ()"
  "if" :: ["&&"].intercalate tests ++ [braces (units "return Ok (()) ;")]

def writeStart (rt : Units) (c : Binding.Class) : Units :=
  let pushed := c.attributes.filterMap fun s =>
    match s.place with
    | .attr tag type =>
      some (forEach s (units "attributes . push" ++
        [parens [parens (literal tag :: "," :: toLiteral rt type ["value"])], ";"]))
    | _ => none
  if pushed.isEmpty then
    units "writer . start_element" ++ [parens [literal c.tag, ",", "&", "[]"]] ++ units "? ;"
  else
    units "let mut attributes : Vec <" ++ ["(& str , String)"] ++ units "> = Vec :: new () ;" ++
      pushed.map braces ++ units "writer . start_element" ++
      [parens [literal c.tag, ",", "&", "attributes"]] ++ units "? ;"

def writeSlot (rt : Units) (s : Slot) : Units :=
  match s.place with
  | .attr .. => []
  | .text type =>
    [braces (forEach s (units "writer . text" ++ [parens ("&" :: toLiteral rt type ["value"])] ++
      units "? ;"))]
  | .child tag type => [braces (forEach s (writeChild rt tag type))]
  | .choice union _ alternatives =>
    let arms := alternatives.flatMap fun a =>
      [spell union, "::", spell a.name, "(value)", "=>", braces (writeChild rt a.tag a.type)]
    [braces (forEach s (units "match value" ++ [braces arms]))]

def marshalBody (rt : Units) (c : Binding.Class) : Units :=
  (if c.isListShaped then emptyGuard c.slots else []) ++ writeStart rt c ++
    c.slots.flatMap (writeSlot rt) ++
    units "writer . end_element" ++ [parens [literal c.tag]]

/-! ## Reading -/

def assign (s : Slot) (value : Units) : Units :=
  let member := units "result ." ++ [spell s.member]
  match s.cardinality with
  | .one => member ++ "=" :: value
  | .optional => member ++ ["=", "Some", parens value]
  | .list => member ++ [".", "push", parens value]

def readChild (rt : Units) (type : ValueType) : Units :=
  match type with
  | .object .. => rt ++ units ":: Element :: demarshal (child) ?"
  | _ => fromLiteral rt type ("&" :: rt ++ units ":: text_content (child)")

def caseOf (tag : String) (body : Units) : Units := literal tag :: "=>" :: body ++ [","]

def attributeCases (rt : Units) (s : Slot) : Units :=
  match s.place with
  | .attr tag type => caseOf tag (assign s (fromLiteral rt type (units "attribute . value ()")))
  | _ => []

def childCases (rt : Units) (s : Slot) : Units :=
  match s.place with
  | .child tag type => caseOf tag (assign s (readChild rt type))
  | .choice union _ alternatives =>
    alternatives.flatMap fun a =>
      caseOf a.tag (assign s [spell union, "::", spell a.name, parens (readChild rt a.type)])
  | _ => []

def readText (rt : Units) (s : Slot) : Units :=
  match s.place with
  | .text type => assign s (fromLiteral rt type ("&" :: rt ++ units ":: text_content (node)")) ++ [";"]
  | _ => []

def demarshalBody (rt : Units) (c : Binding.Class) : Units :=
  rt ++ ["::", "expect_element", parens [units "node ,", [literal c.tag]].flatten] ++ units "? ;" ++
    units (if c.slots.isEmpty then "let result = Self :: default () ;"
      else "let mut result = Self :: default () ;") ++
    units "for attribute in node . attributes ()" ++
    [braces (units "match attribute . name ()" ++
      [braces (c.slots.flatMap (attributeCases rt) ++ "other" :: "=>" :: rt ++
        ["::", "unknown_attribute", "(node , other)", ","])])] ++
    c.slots.flatMap (readText rt) ++
    units "for child in node . children () . filter" ++
    ["(| child | child . is_element ())",
      braces (units "match child . tag_name () . name ()" ++
        [braces (c.slots.flatMap (childCases rt) ++ "_" :: "=>" :: rt ++
          ["::", "unknown_element", "(node , child)", ","])])] ++
    units "Ok (result)"

end Bindery.Code

/-
  What makes a text no schema.

  `SchemaError.message` is the wording; places are those of the element at
  fault.
-/
import Bindery.Markup.Node

namespace Bindery.Schema

open Markup (Position Node)
open Text (quote)

inductive SchemaError where
  /-- The text is no document. -/
  | markup (cause : Markup.Error)
  | missingName (tag : String) (pos : Position)
  | missingAttribute (tag key : String) (pos : Position)
  | invalidOccurs (value : String) (pos : Position)
  | missingStart
  | unsupportedRoot (tag : String)
  /-- A relation of `source` to an entity that is not there; the roots of a
      document have the empty source. -/
  | danglingRelation (source target : String)
deriving DecidableEq, Repr, Inhabited

def SchemaError.message : SchemaError → String
  | markup cause => s!"malformed schema document: {cause.message}"
  | missingName tag pos => s!"{pos.text}: <{tag}> has no name"
  | missingAttribute tag key pos =>
    s!"{pos.text}: <{tag}> is missing the {quote key} attribute"
  | invalidOccurs value pos => s!"{pos.text}: invalid occurrence bound {quote value}"
  | missingStart => "the grammar does not define a start pattern"
  | unsupportedRoot tag => s!"unsupported schema document root <{tag}>"
  | danglingRelation source target =>
    s!"relation from {quote source} points to unknown target {quote target}"

def SchemaError.isAbrupt : SchemaError → Bool
  | markup cause => cause.isAbrupt
  | _ => false

def requiredAttribute (n : Node) (key : String) : Except SchemaError String :=
  match n.attribute? key with
  | some value => .ok value
  | none => .error (.missingAttribute n.name key n.pos)

end Bindery.Schema

/-
  Reading grammars: what is gathered on the way.

  The readers of the grammar languages walk a document and gather definitions
  and notices; both are kept when a reader fails.
-/
import Bindery.Notice
import Bindery.Schema.Error
import Bindery.Schema.Grammar

namespace Bindery.Schema

/-- What has been gathered from a grammar. -/
structure Reading where
  definitions : Definitions := {}
  choices : Nat := 0
  notices : List Notice := []

/-- A reader that may gather and may fail. -/
abbrev ReadM := ExceptT SchemaError (StateM Reading)

namespace ReadM

def tell (n : Notice) : ReadM Unit :=
  modify fun r => { r with notices := r.notices ++ [n] }

def define (name : String) (body : ElementPattern) : ReadM Unit :=
  modify fun r => { r with definitions := r.definitions.add name body }

def nextChoice : ReadM Nat :=
  modifyGet fun r => (r.choices + 1, { r with choices := r.choices + 1 })

/-- A result that does not depend on what was gathered. -/
def ofExcept {α : Type} (r : Except SchemaError α) : ReadM α :=
  liftExcept r
where
  liftExcept : Except SchemaError α → ReadM α
    | .ok a => pure a
    | .error e => throw e

def dataType (name : String) : ReadM DataType := do
  match DataType.ofName? name with
  | some type => pure type
  | none =>
    tell (.unknownDataType name)
    pure .string

end ReadM

/-- The part of a name behind its last colon. -/
def localName (name : String) : String :=
  let tail := name.toList.reverse.takeWhile (· != ':')
  String.ofList tail.reverse

end Bindery.Schema

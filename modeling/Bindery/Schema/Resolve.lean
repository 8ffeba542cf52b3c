/-
  Resolving references.

  A reference is replaced by the content of every body of the definition it
  names, under the modifiers of the reference.  Two kinds of references stay
  where they are: one from an element to its own name, and one that leads back
  into a definition being resolved.  So do references to names that are not
  defined.

  `substitute` walks an element, with `lookup` for what a name leads to.
  `lookupIn` is that function for a table of definitions: every definition is
  resolved at most once (`Resolving.done`), and `path`, the definitions being
  resolved, only grows on the way down, so it ends.  Content that takes the
  place of a reference is resolved already and is not walked again.
-/
import Bindery.Notice
import Bindery.Schema.Grammar

namespace Bindery.Schema

/-- What a name leads to. -/
inductive Target where
  /-- A definition with these bodies, which are resolved. -/
  | resolved (bodies : List ElementPattern)
  /-- A definition that is being resolved. -/
  | recursive
  | missing
deriving Repr

/-- The definitions resolved so far, and what there is to tell. -/
structure Resolving where
  done : Table (List ElementPattern) := {}
  notices : List Notice := []

/-- A step that may resolve definitions. -/
abbrev ResolveM := StateM Resolving

def ResolveM.tell (n : Notice) : ResolveM Unit :=
  modify fun s => { s with notices := s.notices ++ [n] }

/-- The element with the content of a body in the place of a reference that
    stands under `pattern`.  References left in the body stay, as dealt with. -/
def inlineBody (pattern : Pattern) (e body : ElementPattern) : ElementPattern where
  name := e.name
  isEmpty := e.isEmpty
  pattern := e.pattern
  elements := e.elements ++ body.elements.map fun c => { c with pattern := c.pattern.merge pattern }
  attributes := e.attributes ++ body.attributes.map (·.mergePattern pattern)
  references := e.references ++
    body.references.map fun r => { r with pattern := r.pattern.merge pattern, substituted := true }
  hasText := e.hasText || body.hasText
  dataType := e.dataType <|> body.dataType
  facet := e.facet <|> body.facet

def keepReference (e : ElementPattern) (r : Reference) : ElementPattern :=
  { e with references := e.references ++ [r] }

/-- Adds to `grown` what takes the place of the references of the element
    `owner`, and the references that stay. -/
def expandReferences (lookup : String → ResolveM Target) (owner : String)
    (grown : ElementPattern) : List Reference → ResolveM ElementPattern
  | [] => return grown
  | r :: rs => do
    let grown ←
      if r.name = owner || r.substituted then pure (keepReference grown r)
      else do
        let kept := keepReference grown { r with substituted := true }
        match ← lookup r.name with
        | .resolved bodies => pure (bodies.foldl (inlineBody r.pattern) grown)
        | .recursive => do
          ResolveM.tell (.recursiveReference r.name owner)
          pure kept
        | .missing => do
          ResolveM.tell (.undefinedReference r.name owner)
          pure kept
    expandReferences lookup owner grown rs

/-- The attribute with the type that a body gives its value, where it has none
    yet. -/
def inlineValue (a : AttributePattern) (body : ElementPattern) : AttributePattern :=
  { a with
    dataType := a.dataType <|> body.dataType
    facet := a.facet <|> Facet.proper body.facet }

def resolveValue (lookup : String → ResolveM Target) (a : AttributePattern) :
    ResolveM AttributePattern :=
  match a.valueReference with
  | none => pure a
  | some name => do
    let a := { a with valueReference := none }
    match ← lookup name with
    | .resolved bodies => pure (bodies.foldl inlineValue a)
    | .recursive => pure a
    | .missing => do
      ResolveM.tell (.undefinedValue a.name name)
      pure a

mutual

def substitute (lookup : String → ResolveM Target) : ElementPattern → ResolveM ElementPattern
  | ⟨name, hasText, isEmpty, elements, attributes, references, pattern, dataType, facet⟩ => do
    let grown ← expandReferences lookup name
      { name, hasText, isEmpty, attributes, pattern, dataType, facet } references
    let attributes ← grown.attributes.mapM (resolveValue lookup)
    let elements ← substituteAll lookup elements
    return { grown with attributes, elements := elements ++ grown.elements }

def substituteAll (lookup : String → ResolveM Target) :
    List ElementPattern → ResolveM (List ElementPattern)
  | [] => return []
  | e :: es => do
    let e ← substitute lookup e
    let es ← substituteAll lookup es
    return e :: es

end

/-- What `name` leads to among the definitions, while those of `path` are being
    resolved. -/
def lookupIn (ds : Definitions) (path : List String) (name : String) : ResolveM Target := do
  match (← get).done.get? name with
  | some bodies => return .resolved bodies
  | none =>
    if _hp : name ∈ path then return .recursive
    else
      match _h : ds.get? name with
      | none => return .missing
      | some bodies =>
        let bodies ← substituteAll (fun n => lookupIn ds (name :: path) n) bodies
        modify fun s => { s with done := s.done.insert name bodies }
        return .resolved bodies
termination_by remaining ds.keys path
decreasing_by exact remaining_cons_lt (Table.mem_keys_of_get? _h) _hp

/-- The grammar with its references replaced, in the start and in every
    definition reached from it, and what there is to tell. -/
def Grammar.resolve (g : Grammar) : Grammar × List Notice :=
  let (start, s) := (substitute (lookupIn g.definitions []) g.start).run {}
  let definitions := g.definitions.entries.map fun (name, bodies) =>
    (name, (s.done.get? name).getD bodies)
  ({ start, definitions := ⟨definitions⟩ }, s.notices)

end Bindery.Schema

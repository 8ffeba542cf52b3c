/-
  Names in the generated Rust source.

  `className`, `memberName` and `variantName` derive the name of a class, a
  member and an enumeration variant from the words of a schema.  `spell` writes
  a name as an identifier, and `isLegal` tells which names can be written:
  keywords as raw identifiers, or with `_` after them where those are not
  allowed.  `firstFree` picks the first candidate that is not taken.
-/
import Bindery.Text.Identifier
import Bindery.Text.Words

namespace Bindery.Code

open Text

/-! ## Identifiers -/

/-- The keywords that cannot be written as raw identifiers. -/
def pathKeywords : List String := ["crate", "self", "super", "Self"]

def keywords : List String :=
  ["as", "break", "const", "continue", "crate", "else", "enum", "extern", "false", "fn", "for",
    "if", "impl", "in", "let", "loop", "match", "mod", "move", "mut", "pub", "ref", "return",
    "self", "Self", "static", "struct", "super", "trait", "true", "type", "unsafe", "use", "where",
    "while", "async", "await", "dyn", "abstract", "become", "box", "do", "final", "macro",
    "override", "priv", "typeof", "unsized", "virtual", "yield", "try"]

def isLegal (name : String) : Bool :=
  keywords.contains name || isIdentifier name.toList

def spell (name : String) : String :=
  if pathKeywords.contains name then name ++ "_"
  else if keywords.contains name then "r#" ++ name
  else name

/-! ## Derived names -/

/-- The name with `_` for every character that is neither letter nor digit. -/
def sanitize (name : String) : String :=
  String.ofList (name.toList.map fun c => if isAlphanumeric c then c else '_')

def startsWithLetter (s : String) : Bool := s.toList.head?.any isAlphabetic

/-- The types that generated code relies on. -/
def reservedTypes : List String := ["Box", "Default", "Option", "Result", "Self", "String", "Vec"]

def className (name : String) : String :=
  let base := pascal (sanitize name)
  if base.isEmpty then "Unnamed"
  else if !startsWithLetter base then "_" ++ base
  else if reservedTypes.contains base then base ++ "Type"
  else base

def memberName (name : String) : String :=
  let base := snake (sanitize name)
  if base.isEmpty then "unnamed"
  else if !startsWithLetter base then "_" ++ base
  else base

def variantName (value : String) : String :=
  if value.isEmpty then "Empty"
  else if !startsWithLetter value then "_" ++ pascal (sanitize value)
  else pascal (sanitize value)

/-! ## Names that are not taken -/

/-- The first of the candidates that is not taken.  Where they are pairwise
    distinct, one more candidate than there are names taken is enough. -/
def firstFree (candidate : Nat → String) (taken : List String) : String :=
  candidate (((List.range taken.length).find? (candidate · ∉ taken)).getD taken.length)

/-- `base`, or `base` with the smallest free number from 2. -/
def unique (taken : List String) (base : String) : String :=
  firstFree (fun n => if n = 0 then base else s!"{base}{n + 1}") taken

def invalidVariant : String := "Invalid"

def variantCandidate (base : String) (n : Nat) : String :=
  if n = 0 then base
  else if n = 1 && base == invalidVariant then base ++ "Value"
  else s!"{base}{n}"

/-- The variants of the values, in order, with distinct names. -/
def variantsFrom (taken : List String) : List String → List (String × String)
  | [] => []
  | value :: values =>
    let name := firstFree (variantCandidate (variantName value)) taken
    (name, value) :: variantsFrom (taken ++ [name]) values

def variants (values : List String) : List (String × String) :=
  variantsFrom [invalidVariant] values

end Bindery.Code

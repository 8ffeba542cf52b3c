/-
  Reading types.
-/
import Bindery.Source.Reading.Path

namespace Bindery.Source

def hasTrait (bounds : List Tree) : Bool :=
  bounds.any fun
    | .bound .. | .unset => true
    | _ => false

def readObject (self : Descent) (plus : Bool) : Parse Tree := do
  let bounds ← readBounds self plus false false
  if hasTrait bounds then return .object bounds else failure

def readMoreBounds (self : Descent) : Parse (List Tree) :=
  manyWhile (comes "+") do
    marks "+"
    readBound self false false

/-- The bound that a type in parentheses is, if it is one and not said to be a
    trait object. -/
def boundOf : Tree → Option Tree
  | .path rooted segments => some (.bound true none false (.path rooted segments))
  | .object [.bound _ binder relaxed path] => some (.bound true binder relaxed path)
  | _ => none

def readParenType (self : Descent) (plus : Bool) : Parse Tree := do
  match ← get with
  | .group .paren (.lifetime _ :: _) :: _ =>
    return .paren (← inside .paren (readObject self true))
  | .group .paren (.mark '?' _ :: _) :: _ =>
    match ← inside .paren (readTraitBound self false) with
    | .bound _ binder relaxed path =>
      return .object (.bound true binder relaxed path :: (← readMoreBounds self))
    | _ => failure
  | ts =>
    let isDyn := match ts with
      | .group _ body :: _ => wordBegins "dyn" body
      | _ => false
    match ← inside .paren (commaList (self (.type true))) with
    | ([t], false) =>
      match boundOf t, plus && !isDyn && (← comes "+") with
      | some b, true => return .object (b :: (← readMoreBounds self))
      | _, _ => return .paren t
    | (ts, _) => return .tuple ts

/-- Reads the name of a calling convention, if one comes next, and writes it
    with blanks between. -/
def readAbi : Parse String := do
  if ← word "extern" then
    match ← get with
    | .literal s :: ts =>
      if isStringText s then
        set ts
        return "extern " ++ s ++ " "
      else return "extern "
    | _ => return "extern "
  else return ""

def variadicComes : Parse Bool := do
  match ← get with
  | .word w :: .mark ':' _ :: rest => return (w == "_" || isName w) && beginsWith "..." rest
  | ts => return beginsWith "..." ts

def readTypeArgument (self : Descent) (first : Bool) : Parse Tree := do
  match ← get with
  | .word "mut" :: .word "self" :: ts =>
    if first then
      set ts
      if ← marks? ":" then discard (self (.type true))
      return .unset
    else failure
  | .word w :: .mark ':' close :: rest =>
    let named := (w == "_" || isName w || (first && w == "self")) &&
      !beginsWith "::" (.mark ':' close :: rest)
    if named then
      set rest
      return .typed (.name false false w none) (← self (.type true))
    else self (.type true)
  | _ => self (.type true)

def readTypeArguments (self : Descent) (first : Bool) : Nat → Parse (List Tree)
  | 0 => failure
  | n + 1 => do
    if ← atEnd then return []
    let attrs ← outerAttrs self
    if ← variadicComes then
      let name ← if ← comes "..." then pure none else (some <$> anyWord)
      if name.isSome then marks ":"
      marks "..."
      discard (marks? ",")
      return [(Tree.variadic (name.map (.name false false · none))).withAttrs attrs]
    let arg ← readTypeArgument self first
    if ← atEnd then return [arg.withAttrs attrs]
    marks ","
    return arg.withAttrs attrs :: (← readTypeArguments self false n)

def readFunctionType (self : Descent) (binder : Option Tree) : Parse Tree := do
  let isUnsafe ← qualifier "unsafe"
  let abi ← readAbi
  keyword "fn"
  let inputs ← inside .paren (do readTypeArguments self true ((← get).length + 1))
  let output ← optionIf (marks? "->") (self (.type false))
  return .function binder (isUnsafe ++ abi) inputs output

def readPathType (self : Descent) (plus : Bool) (binder : Option Tree) : Parse Tree := do
  match ← readTypePath self with
  | .path rooted segments =>
    let path := Tree.path rooted segments
    if ← expansionComes path then readExpansion path
    else
      let bound := Tree.bound false binder false path
      if plus && (← comes "+") then
        return .object (bound :: (← more ((← get).length + 1)))
      else if binder.isSome then return .object [bound]
      else return path
  | t => return t
where
  more : Nat → Parse (List Tree)
    | 0 => failure
    | n + 1 => do
      if ← marks? "+" then
        if ← boundComes then
          let bound ← readBound self false false
          return bound :: (← more n)
        else return []
      else return []

def readType (self : Descent) (plus : Bool) : Parse Tree := do
  let binder ← readBinder? self
  match ← get with
  | .word w :: ts =>
    if w == "fn" || w == "unsafe" || w == "extern" then readFunctionType self binder
    else if isName w || pathWords.contains w then readPathType self plus binder
    else if binder.isSome then failure
    else if w == "dyn" then
      set ts
      if ← marks? "*" then
        discard (readObject self plus)
        return .unset
      else readObject self plus
    else if w == "impl" then
      set ts
      let bounds ← readBounds self plus true true
      if hasTrait bounds then return .hidden bounds else failure
    else if w == "_" then
      set ts
      return .hole
    else failure
  | ts =>
    if binder.isSome then failure
    else
      match ts with
      | .group .paren _ :: _ => readParenType self plus
      | .group .bracket _ :: _ =>
        inside .bracket do
          let t ← self (.type true)
          if ← marks? ";" then return .sized t (← self (.expr true 0)) else return .slice t
      | .mark '*' _ :: .word w :: rest =>
        set rest
        if w == "mut" || w == "const" then return .pointer (w == "mut") (← self (.type false))
        else failure
      | .mark '&' _ :: rest =>
        set rest
        let lifetime ← optLifetime
        let mutable ← word "mut"
        return .refType lifetime mutable (← self (.type false))
      | .mark '!' _ :: rest =>
        set rest
        return .never
      | .lifetime _ :: _ => readObject self true
      | _ => readPathType self plus none

end Bindery.Source

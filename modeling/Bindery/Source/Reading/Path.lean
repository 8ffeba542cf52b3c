/-
  Reading paths, attributes, generic arguments, parameters and bounds.
-/
import Bindery.Source.Reading.Basic

namespace Bindery.Source

/-! ## Attributes -/

/-- The keywords that may be a segment of a path without arguments. -/
def pathWords : List String := ["super", "self", "Self", "crate"]

def segmentBegins : List Token → Bool
  | .word w :: _ => isName w || pathWords.contains w
  | _ => false

def plainSegment : Parse Tree := do
  let w ← anyWord
  if isName w || pathWords.contains w then return .segment w true [] else failure

def plainPath : Parse Tree := do
  let rooted ← marks? "::"
  let first ← plainSegment
  return .path rooted (first :: (← manyWhile (comes "::") (do
    marks "::"
    plainSegment)))

def attrValue (self : Descent) : Parse Tree := do
  let ts ← get
  match literalOf ts with
  | some (s, []) =>
    set ([] : List Token)
    return .literal s
  | _ =>
    match ts with
    | .mark '#' _ :: .group .bracket _ :: _ => failure
    | _ => self (.expr true 0)

def attrContent (self : Descent) (inner : Bool) : Parse Tree := do
  let path ← if ← word "unsafe" then pure (.path false [.segment "unsafe" true []]) else plainPath
  match ← get with
  | .group d body :: ts =>
    set ts
    return .attr inner path (some (.listing d body))
  | _ =>
    if ← comesOnly "=" ["==", "=>"] then
      marks "="
      return .attr inner path (some (← attrValue self))
    else
      return .attr inner path none

def outerAttrs (self : Descent) : Parse (List Tree) :=
  manyWhile (comes "#") do
    marks "#"
    inside .bracket (attrContent self false)

def innerAttrs (self : Descent) : Parse (List Tree) :=
  manyWhile ours do
    marks "#"
    marks "!"
    inside .bracket (attrContent self true)
where
  ours : Parse Bool := do
    match ← get with
    | .mark '#' _ :: .mark '!' _ :: _ => return true
    | _ => return false

/-! ## Arguments -/

def constArgument (self : Descent) : Parse Tree := do
  if ← literalComes then aLiteral
  else if ← nameComes then
    return .path false [.segment (← identifier) true []]
  else self .body

/-- Whether a constant comes next that cannot be taken for a type. -/
def constComes : Parse Bool := return (← literalComes) || (← groupComes .brace)

def genericArgument (self : Descent) : Parse Tree := do
  match ← get with
  | .lifetime name :: rest =>
    if beginsWith "+" rest then self (.type true)
    else
      set rest
      return .lifetime name
  | _ =>
    if ← constComes then constArgument self
    else
      match ← self (.type true) with
      | .path false [.segment name turbofish generics] =>
        let segment := Tree.segment name turbofish generics
        if ← marks? "=" then
          if ← constComes then return .equation segment (← constArgument self)
          else return .equation segment (← self (.type true))
        else if ← marks? ":" then
          return .constraint segment (← plusList listEnds (self (.bound false true)))
        else
          return .path false [segment]
      | t => return t
where
  /-- Whether a list in angle brackets ends or goes on. -/
  listEnds : Parse Bool := return (← comes ",") || (← comes ">")

def readArguments (self : Descent) : Parse (List Tree) := do
  marks "<"
  listUntil ">" (genericArgument self)

/-! ## Paths -/

def readSegment (self : Descent) (inExpr : Bool) : Parse Tree := do
  let name ← anyWord
  if ["super", "self", "crate", "try"].contains name then
    return .segment name inExpr []
  else if !(name == "Self" || isName name) then
    failure
  else if !inExpr && (← comesOnly "<" ["<=", "<<="]) then
    return .segment name inExpr (← readArguments self)
  else
    match afterMarks "::".toList (← get) with
    | some (.mark '<' c :: ts) =>
      set (Token.mark '<' c :: ts)
      return .segment name inExpr (← readArguments self)
    | _ => return .segment name inExpr []

def readPath (self : Descent) (inExpr : Bool) : Parse Tree := do
  let rooted ← marks? "::"
  let first ← readSegment self inExpr
  return .path rooted (first :: (← manyWhile more (do
    marks "::"
    readSegment self inExpr)))
where
  /-- Whether a segment follows, and no types of a function. -/
  more : Parse Bool := do
    match afterMarks "::".toList (← get) with
    | some ts => return !groupBegins .paren ts
    | none => return false

/-- Reads a path after a type in angle brackets, or a path. -/
def readQualified (self : Descent) (inExpr : Bool) : Parse Tree := do
  if ← marks? "<" then
    let type ← self (.type true)
    let trait ← optionIf (word "as") (readPath self false)
    marks ">"
    marks "::"
    let first ← readSegment self inExpr
    return .qualified type trait (first :: (← manyWhile (comes "::") (do
      marks "::"
      readSegment self inExpr)))
  else readPath self inExpr

def isPlainPath : Tree → Bool
  | .path _ segments => segments.all fun
    | .segment _ _ [] => true
    | _ => false
  | _ => false

def expansionComes (path : Tree) : Parse Bool :=
  return isPlainPath path && (← comesOnly "!" ["!="])

def readExpansion (path : Tree) : Parse Tree := do
  marks "!"
  let (d, body) ← anyGroup
  return .expansion path d body

def readCalls (self : Descent) (segments : List Tree) : Parse (List Tree) := do
  let ts ← get
  let after := match afterMarks "::".toList ts with
    | some rest => if groupBegins .paren rest then rest else ts
    | none => ts
  match segments.getLast?, groupBegins .paren after with
  | some (.segment name _ []), true =>
    set after
    let inputs ← listIn .paren (self (.type true))
    let output ← optionIf (marks? "->") (self (.type false))
    return segments.dropLast ++ [.callSegment name inputs output]
  | _, _ => return segments

def readTypePath (self : Descent) : Parse Tree := do
  match ← readQualified self false with
  | .path rooted segments => return .path rooted (← readCalls self segments)
  | .qualified type trait segments => return .qualified type trait (← readCalls self segments)
  | t => return t

/-! ## Parameters and bounds -/

def readParameter (self : Descent) : Parse Tree := do
  let attrs ← outerAttrs self
  match ← optLifetime with
  | some name =>
    let bounds ← if ← marks? ":" then plusList genericArgument.listEnds aLifetime else pure []
    return (Tree.lifetimeParameter name bounds).withAttrs attrs
  | none =>
    if ← word "const" then
      let name ← identifier
      marks ":"
      let type ← self (.type true)
      let value ← optionIf (marks? "=") (constArgument self)
      return (Tree.constParameter name type value).withAttrs attrs
    else
      let name ← identifier
      let bounds ← if ← marks? ":" then plusList done (self (.bound false true)) else pure []
      let value ← optionIf (marks? "=") (self (.type true))
      return (Tree.typeParameter name bounds value).withAttrs attrs
where
  done : Parse Bool := return (← genericArgument.listEnds) || (← comes "=")

def readBinder? (self : Descent) : Parse (Option Tree) :=
  optionIf (word "for") do
    marks "<"
    return .binder (← listUntil ">" (readParameter self))

/-- Reads a trait as a bound, which is of a constant trait only where
    `constant` allows it. -/
def readTraitBound (self : Descent) (constant : Bool) : Parse Tree := do
  let before ← readBinder? self
  let conditional ← marks? "~"
  let isConst ← word "const"
  if (conditional && !isConst) || (isConst && !constant) then failure
  let relaxed ← marks? "?"
  let binder ← if before.isNone && relaxed then readBinder? self else pure before
  if binder.isSome && relaxed then failure
  match ← readPath self false with
  | .path rooted segments =>
    let segments ← readCalls self segments
    if isConst then return .unset else return .bound false binder relaxed (.path rooted segments)
  | _ => failure

/-- Reads a bound.  Captured parameters and constant traits may stand where
    `captures` and `constant` allow it. -/
def readBound (self : Descent) (captures constant : Bool) : Parse Tree := do
  match ← get with
  | .lifetime name :: ts =>
    set ts
    return .lifetime name
  | .word "use" :: ts =>
    set ts
    marks "<"
    let names ← listUntil ">" captured
    if captures then return .captures names else failure
  | .group .paren _ :: _ =>
    match ← inside .paren (readTraitBound self constant) with
    | .bound _ binder relaxed path => return .bound true binder relaxed path
    | t => return t
  | _ => readTraitBound self constant
where
  captured : Parse String := do
    match ← optLifetime with
    | some name => return "'" ++ name
    | none => if ← word "Self" then return "Self" else identifier

def boundComes : Parse Bool := do
  match ← get with
  | .word _ :: _ | .lifetime _ :: _ | .group .paren _ :: _ => return true
  | ts => return beginsWith "::" ts || beginsWith "?" ts || beginsWith "~" ts

/-- Reads bounds joined by `+`, or a single one where no `+` is allowed.  A `+`
    may end them. -/
def readBounds (self : Descent) (plus captures constant : Bool) : Parse (List Tree) := do
  let first ← readBound self captures constant
  if ← marksIf plus "+" then
    return first :: (← more ((← get).length + 1))
  else
    return [first]
where
  more : Nat → Parse (List Tree)
    | 0 => failure
    | n + 1 => do
      if !(← boundComes) then return []
      let bound ← readBound self captures constant
      if ← marks? "+" then return bound :: (← more n) else return [bound]

end Bindery.Source

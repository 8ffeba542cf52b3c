/-
  Reading patterns.
-/
import Bindery.Source.Reading.Path

namespace Bindery.Source

/-- Whether a bound of a range is left out before these tokens. -/
def boundMissing (ts : List Token) : Bool :=
  ts.isEmpty || beginsWith "|" ts || beginsWith "=" ts ||
    (beginsWith ":" ts && !beginsWith "::" ts) || beginsWith "," ts || beginsWith ";" ts ||
    wordBegins "if" ts

def pathBegins (ts : List Token) : Bool :=
  segmentBegins ts || beginsWith "::" ts || beginsWith "<" ts

def readRangeBound (self : Descent) : Parse (Option Tree) := do
  let ts ← get
  if boundMissing ts then return none
  else if (literalOf ts).isSome then return some (← aLiteral)
  else if pathBegins ts then return some (← readQualified self true)
  else if wordBegins "const" ts then
    keyword "const"
    match ← self .body with
    | .block _ body => return some (.scope "const " body)
    | _ => failure
  else failure

def rangeMarks : Parse Bool := do
  if ← marks? "..=" then return true
  if ← marks? "..." then return true
  marks ".."
  return false

def readRangeFrom (self : Descent) (lower : Tree) : Parse Tree := do
  if ← comes ".." then
    let closed ← rangeMarks
    let upper ← readRangeBound self
    if closed && upper.isNone then failure
    else return .range closed (some lower) upper
  else return lower

/-- Reads a range without a lower bound; without any bound it is the rest of a
    list. -/
def readRangeTo (self : Descent) : Parse Tree := do
  let closed ← marks? "..="
  if !closed then marks ".."
  let upper ← readRangeBound self
  if closed && upper.isNone then failure
  else return .range closed none upper

def readFieldName : Parse (String × Bool) := do
  match ← get with
  | .literal s :: ts =>
    match indexValue? s with
    | some i =>
      set ts
      return (toString i, false)
    | none => failure
  | _ => return (← identifier, true)

def readFieldPattern (self : Descent) : Parse Tree := do
  let isBoxed ← word "box"
  let byRef ← word "ref"
  let mutable ← word "mut"
  if isBoxed || byRef || mutable then
    let name ← identifier
    return if isBoxed then .unset else .name byRef mutable name none
  else
    let (name, isNamed) ← readFieldName
    if !isNamed || (← comes ":") then
      marks ":"
      return .fieldPattern name (← self .cases)
    else
      return .name false false name none

def readFieldPatterns (self : Descent) : Nat → Parse (List Tree × Option Tree)
  | 0 => failure
  | n + 1 => do
    if ← atEnd then return ([], none)
    let attrs ← outerAttrs self
    if ← marks? ".." then
      return ([], some ((Tree.range false none none).withAttrs attrs))
    let field ← readFieldPattern self
    let field := field.withAttrs attrs
    if ← atEnd then return ([field], none)
    marks ","
    let (fields, rest) ← readFieldPatterns self n
    return (field :: fields, rest)

def readPathPattern (self : Descent) : Parse Tree := do
  let path ← readQualified self true
  if ← expansionComes path then readExpansion path
  else if ← groupComes .brace then
    let (fields, rest) ← inside .brace (do readFieldPatterns self ((← get).length + 1))
    return .fields path fields rest
  else if ← groupComes .paren then
    return .construct path (← listIn .paren (self .cases))
  else readRangeFrom self path

def readBinding (self : Descent) : Parse Tree := do
  let byRef ← word "ref"
  let mutable ← word "mut"
  let name ← if ← word "self" then pure "self" else identifier
  return .name byRef mutable name (← optionIf (marks? "@") (self .pattern))

def pathPatternBegins : List Token → Bool
  | .word w :: rest =>
    ["Self", "super", "crate"].contains w || (w == "self" && beginsWith "::" rest) ||
      (isName w && (beginsWith "::" rest || beginsWith "!" rest || beginsWith ".." rest ||
        groupBegins .brace rest || groupBegins .paren rest))
  | ts => beginsWith "::" ts || beginsWith "<" ts

/-- Whether a range lacks a bound, as it may not in a list. -/
def isHalfOpen : Tree → Bool
  | .range _ none (some _) | .range _ (some _) none => true
  | _ => false

def readPattern (self : Descent) : Parse Tree := do
  let ts ← get
  if pathPatternBegins ts then readPathPattern self
  else
    match ts with
    | .word "_" :: rest =>
      set rest
      return .hole
    | .word "box" :: rest =>
      set rest
      discard (self .pattern)
      return .unset
    | .group .paren _ :: _ =>
      match ← inside .paren (commaList (self .cases)) with
      | ([.range false none none], false) => return .group [.range false none none] false
      | ([p], false) => return .paren p
      | (ps, trailing) => return .group ps trailing
    | .group .bracket _ :: _ =>
      let parts ← listIn .bracket (self .cases)
      if parts.any isHalfOpen then failure else return .parts parts
    | .mark '&' _ :: rest =>
      set rest
      let mutable ← word "mut"
      return .reference mutable (← self .pattern)
    | .mark '.' _ :: _ => readRangeTo self
    | _ =>
      if wordBegins "const" ts || beginsWith "-" ts || (literalOf ts).isSome then
        match ← readRangeBound self with
        | some lower => readRangeFrom self lower
        | none => failure
      else readBinding self

def readCases (self : Descent) : Parse Tree := do
  let leading ← marks? "|"
  let first ← self .pattern
  let others ← manyWhile (comesOnly "|" ["||", "|="]) (do
    marks "|"
    self .pattern)
  if leading || !others.isEmpty then return .either (first :: others) else return first

end Bindery.Source

/-
  Reading from tokens.

  Types, patterns, expressions, blocks and items hold one another.  `Goal`
  names what their readers need of each other; each reader is given a
  `Descent`, which reads any goal one level further down.
-/
import Bindery.Source.Literal
import Bindery.Source.Tree

namespace Bindery.Source

abbrev Parse := StateT (List Token) Option

inductive Goal where
  /-- A type; bounds may be joined by `+` where `plus` allows it. -/
  | type (plus : Bool)
  /-- A bound.  Captured parameters and constant traits may stand where
      `captures` and `constant` allow it. -/
  | bound (captures constant : Bool)
  /-- A pattern without alternatives. -/
  | pattern
  /-- A pattern, or several of which one is to match. -/
  | cases
  /-- An expression whose operators bind at least as strongly as `level`.
      Records may be built where `records` allows it. -/
  | expr (records : Bool) (level : Nat)
  /-- An operand with the operators before it. -/
  | unary (records : Bool)
  /-- An expression that stands first in a statement or case. -/
  | first
  /-- A condition and what follows it. -/
  | cond
  /-- A block without attributes of its own. -/
  | block
  /-- A block that may begin with attributes of its own. -/
  | body
  | item
  /-- What is imported, which a root may begin where `root` allows it. -/
  | importTree (root : Bool)

abbrev Descent := Goal → Parse Tree

/-! ## Single tokens -/

/-- The tokens after the marks `cs`, all but the last of which stand close to
    the next. -/
def afterMarks : List Char → List Token → Option (List Token)
  | [], ts => some ts
  | [c], .mark c' _ :: ts => if c = c' then some ts else none
  | c :: cs, .mark c' true :: ts => if c = c' then afterMarks cs ts else none
  | _, _ => none

def beginsWith (op : String) (ts : List Token) : Bool := (afterMarks op.toList ts).isSome

def comes (op : String) : Parse Bool := return beginsWith op (← get)

/-- Whether the marks come next, and none of the longer ones. -/
def comesOnly (op : String) (longer : List String) : Parse Bool := do
  let ts ← get
  return beginsWith op ts && !longer.any (beginsWith · ts)

def marks (op : String) : Parse Unit := do
  set (← afterMarks op.toList (← get))

def marks? (op : String) : Parse Bool := do
  match afterMarks op.toList (← get) with
  | some ts =>
    set ts
    return true
  | none => return false

/-- Reads the marks if they come next and are allowed, and says whether. -/
def marksIf (allowed : Bool) (op : String) : Parse Bool :=
  if allowed then marks? op else return false

def anyWord : Parse String := do
  match ← get with
  | .word w :: ts =>
    set ts
    return w
  | _ => failure

def wordBegins (w : String) : List Token → Bool
  | .word w' :: _ => w == w'
  | _ => false

def wordComes (w : String) : Parse Bool := return wordBegins w (← get)

def word (w : String) : Parse Bool := do
  match ← get with
  | .word w' :: ts =>
    if w = w' then
      set ts
      return true
    else
      return false
  | _ => return false

def keyword (w : String) : Parse Unit := do
  if ← word w then return () else failure

/-- The word with a blank after it, if it comes next; else nothing. -/
def qualifier (w : String) : Parse String := do
  if ← word w then return w ++ " " else return ""

def isName (w : String) : Bool := w != "_" && !Code.keywords.contains w

def nameBegins : List Token → Bool
  | .word w :: _ => isName w
  | _ => false

def nameComes : Parse Bool := return nameBegins (← get)

def identifier : Parse String := do
  let w ← anyWord
  if isName w then return w else failure

def identifierOrHole : Parse String := do
  if ← word "_" then return "_" else identifier

def atEnd : Parse Bool := return (← get).isEmpty

def inside {α : Type} (d : Delimiter) (p : Parse α) : Parse α := do
  match ← get with
  | .group d' body :: ts =>
    if d = d' then
      match p body with
      | some (a, []) =>
        set ts
        return a
      | _ => failure
    else failure
  | _ => failure

def groupBegins (d : Delimiter) : List Token → Bool
  | .group d' _ :: _ => d == d'
  | _ => false

def groupComes (d : Delimiter) : Parse Bool := return groupBegins d (← get)

def anyGroup : Parse (Delimiter × List Token) := do
  match ← get with
  | .group d body :: ts =>
    set ts
    return (d, body)
  | _ => failure

def optLifetime : Parse (Option String) := do
  match ← get with
  | .lifetime name :: ts =>
    set ts
    return some name
  | _ => return none

def aLifetime : Parse String := do
  match ← optLifetime with
  | some name => return name
  | none => failure

/-- The literal that begins the tokens, with a sign if it is a number, and the
    tokens after it. -/
def literalOf : List Token → Option (String × List Token)
  | .literal s :: ts => some (s, ts)
  | .word w :: ts => if w == "true" || w == "false" then some (w, ts) else none
  | .mark '-' _ :: .literal s :: ts => if isNumberText s then some ("-" ++ s, ts) else none
  | _ => none

def literalComes : Parse Bool := return (literalOf (← get)).isSome

def aLiteral : Parse Tree := do
  let (s, ts) ← literalOf (← get)
  set ts
  return .literal s

/-! ## Several -/

/-- Reads by `p` as long as `more` says so, `n` times at most. -/
def collect {α : Type} (more : Parse Bool) (p : Parse α) : Nat → Parse (List α)
  | 0 => return []
  | n + 1 => do
    if ← more then
      let a ← p
      return a :: (← collect more p n)
    else
      return []

/-- Reads by `p` as long as `more` says so.  There are no more items than
    tokens. -/
def manyWhile {α : Type} (more : Parse Bool) (p : Parse α) : Parse (List α) := do
  collect more p ((← get).length + 1)

def manyToEnd {α : Type} (p : Parse α) : Parse (List α) :=
  manyWhile (return !(← atEnd)) p

/-- Reads items with `sep` between them and perhaps after the last, up to where
    `done` says so, and says whether `sep` ends them. -/
def separated {α : Type} (sep : String) (done : Parse Bool) (p : Parse α) :
    Nat → Parse (List α × Bool)
  | 0 => failure
  | n + 1 => do
    if ← done then return ([], true)
    let item ← p
    if ← done then return ([item], false)
    marks sep
    let (items, trailing) ← separated sep done p n
    return (item :: items, trailing)

/-- Reads items up to the end, with commas between them and perhaps after the
    last, and says whether there is one. -/
def commaList {α : Type} (p : Parse α) : Parse (List α × Bool) := do
  separated "," atEnd p ((← get).length + 1)

def listIn {α : Type} (d : Delimiter) (p : Parse α) : Parse (List α) := do
  return (← inside d (commaList p)).1

def listUntil {α : Type} (close : String) (p : Parse α) : Parse (List α) := do
  let (items, _) ← separated "," (comes close) p ((← get).length + 1)
  marks close
  return items

/-- Reads items with `+` between them, up to where `done` says so or no `+`
    follows. -/
def plusList {α : Type} (done : Parse Bool) (p : Parse α) : Parse (List α) := do
  more ((← get).length + 1)
where
  more : Nat → Parse (List α)
    | 0 => failure
    | n + 1 => do
      if ← done then return []
      let item ← p
      if ← marks? "+" then return item :: (← more n) else return [item]

/-- Applies `p` to a tree again and again, `n` times at most. -/
def repeatedly (p : Tree → Parse (Option Tree)) : Nat → Tree → Parse Tree
  | 0, t => return t
  | n + 1, t => do
    match ← p t with
    | some t => repeatedly p n t
    | none => return t

def optionIf (test : Parse Bool) (p : Parse Tree) : Parse (Option Tree) := do
  if ← test then return some (← p) else return none

end Bindery.Source

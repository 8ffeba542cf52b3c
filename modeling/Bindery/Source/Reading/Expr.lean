/-
  Reading expressions.
-/
import Bindery.Source.Reading.Path
import Bindery.Source.Reading.Pattern

namespace Bindery.Source

/-! ## Operators -/

/-- How strongly the operators bind, from the loosest. -/
def assignLevel : Nat := 1
def rangeLevel : Nat := 2
def orLevel : Nat := 3
def compareLevel : Nat := 6
def castLevel : Nat := 13

/-- The operators between two expressions.  Longer ones come first. -/
def operators : List (String × Nat) :=
  [("<<=", 1), (">>=", 1), ("&&", 4), ("||", 3), ("<<", 10), (">>", 10), ("==", 6), ("<=", 6),
    ("!=", 6), (">=", 6), ("+=", 1), ("-=", 1), ("*=", 1), ("/=", 1), ("%=", 1), ("^=", 1),
    ("&=", 1), ("|=", 1), ("+", 11), ("-", 11), ("*", 12), ("/", 12), ("%", 12), ("^", 8),
    ("&", 9), ("|", 7), ("<", 6), (">", 6)]

/-- The operator that comes next, and how strongly it binds. -/
def operator : Parse (Option (String × Nat)) := do
  let ts ← get
  return operators.find? fun (op, _) => beginsWith op ts

def isComparison : Tree → Bool
  | .binary op .. => operators.lookup op == some compareLevel
  | _ => false

def isRange : Tree → Bool
  | .range .. => true
  | _ => false

/-- Whether the expression ends a statement or case without a mark after it. -/
def isBlockLike (e : Tree) : Bool :=
  match e.bare with
  | .block .. | .cond .. | .cases .. | .whileLoop .. | .endless .. | .forLoop .. => true
  | .scope keywords _ => !keywords.startsWith "async"
  | _ => false

/-- The marks before which a range has no upper bound. -/
def openEnds : List String :=
  [",", ";", "?", "=>", "=", "+", "/", "%", "^", ">", "<=", "!=", "-=", "*=", "&=", "|=", "<<="]

def readUpper (self : Descent) (records closed : Bool) : Parse (Option Tree) := do
  let ts ← get
  let missing := ts.isEmpty || openEnds.any (beginsWith · ts) ||
    (beginsWith "." ts && !beginsWith ".." ts) || wordBegins "as" ts ||
    (!records && groupBegins .brace ts)
  if !closed && missing then return none
  else return some (← self (.expr records orLevel))

/-- Reads the marks of a range, and says whether it is closed. -/
def rangeSign : Parse Bool := do
  if ← marks? "..=" then return true
  if ← comes "..." then failure
  marks ".."
  return false

/-- Whether a call, a field or the like follows a type, which a cast forbids. -/
def castGoesOn : Parse Bool := do
  let ts ← get
  return (beginsWith "." ts && !beginsWith ".." ts) || beginsWith "?" ts ||
    groupBegins .bracket ts || groupBegins .paren ts

/-- Reads an operator after an expression and what follows it, if it binds at
    least as strongly as `level`. -/
def readOperation (self : Descent) (records : Bool) (level : Nat) (left : Tree) :
    Parse (Option Tree) := do
  if isRange left then return none
  match ← operator with
  | some (op, l) =>
    if l < level then return none
    else if l = compareLevel && isComparison left then failure
    else
      marks op
      let right ← self (.expr records (if l = assignLevel then l else l + 1))
      return some (.binary op left right)
  | none =>
    if level ≤ assignLevel && (← comesOnly "=" ["=>"]) then
      marks "="
      return some (.assign left (← self (.expr records assignLevel)))
    else if level ≤ rangeLevel && (← comes "..") then
      let closed ← rangeSign
      return some (.range closed (some left) (← readUpper self records closed))
    else if level ≤ castLevel && (← wordComes "as") then
      keyword "as"
      let type ← self (.type false)
      if ← castGoesOn then failure
      return some (.cast left type)
    else return none

def readOperations (self : Descent) (records : Bool) (level : Nat) (left : Tree) : Parse Tree := do
  repeatedly (readOperation self records level) ((← get).length + 1) left

def readExpr (self : Descent) (records : Bool) (level : Nat) : Parse Tree := do
  readOperations self records level (← self (.unary records))

/-! ## Calls, fields and the like -/

def readMember (self : Descent) (e : Tree) : Parse Tree := do
  if ← word "await" then return .field e "await"
  let (name, isNamed) ← readFieldName
  let turbofish ← if isNamed then marks? "::" else pure false
  let generics ← if turbofish then readArguments self else pure []
  if isNamed && (turbofish || (← groupComes .paren)) then
    return .method e name generics (← listIn .paren (self (.expr true 0)))
  else return .field e name

def readPoint (self : Descent) (e : Tree) : Parse Tree := do
  match ← get with
  | .literal s :: ts =>
    if isFractionText s then
      match indexValues? s with
      | some (indices, goesOn) =>
        set ts
        let e := indices.foldl (fun e i => .field e (toString i)) e
        if goesOn then readMember self e else return e
      | none => failure
    else readMember self e
  | _ => readMember self e

/-- Reads a call, a field or the like that follows an operand. -/
def readTrailer (self : Descent) (e : Tree) : Parse (Option Tree) := do
  match ← get with
  | .group .paren _ :: _ => return some (.call e (← listIn .paren (self (.expr true 0))))
  | .group .bracket _ :: _ => return some (.index e (← inside .bracket (self (.expr true 0))))
  | .mark '?' _ :: ts =>
    if isRange e then return none
    set ts
    return some (.attempt e)
  | .mark '.' close :: ts =>
    if isRange e || beginsWith ".." (.mark '.' close :: ts) then return none
    set ts
    return some (← readPoint self e)
  | _ => return none

def readTrailers (self : Descent) (e : Tree) : Parse Tree := do
  repeatedly (readTrailer self) ((← get).length + 1) e

/-! ## Operands -/

def bodyOf : Tree → List Tree
  | .block _ body => body
  | _ => []

def readBlock (self : Descent) : Parse (List Tree) := bodyOf <$> self .block

def readBody (self : Descent) : Parse (List Tree) := bodyOf <$> self .body

def readFields (self : Descent) : Nat → Parse (List Tree × Option Tree)
  | 0 => failure
  | n + 1 => do
    if ← atEnd then return ([], none)
    if ← marks? ".." then
      return ([], ← optionIf (return !(← atEnd)) (self (.expr true 0)))
    let attrs ← outerAttrs self
    let (name, isNamed) ← readFieldName
    let value ←
      if !isNamed || (← comes ":") then do
        marks ":"
        some <$> self (.expr true 0)
      else pure none
    let field := (Tree.fieldValue name value).withAttrs attrs
    if ← atEnd then return ([field], none)
    marks ","
    let (fields, rest) ← readFields self n
    return (field :: fields, rest)

def readPathExpr (self : Descent) (records : Bool) : Parse Tree := do
  let path ← readQualified self true
  if ← expansionComes path then readExpansion path
  else if records && (← groupComes .brace) then
    let (fields, rest) ← inside .brace (do readFields self ((← get).length + 1))
    return .record path fields rest
  else return path

def readClosureArgument (self : Descent) : Parse Tree := do
  let attrs ← outerAttrs self
  let p ← self .pattern
  let p ← if ← marks? ":" then (Tree.typed p <$> self (.type true)) else pure p
  return p.withAttrs attrs

def readClosure (self : Descent) (records : Bool) : Parse Tree := do
  let binder ← readBinder? self
  let qualifiers ← ["const", "static", "async", "move"].mapM qualifier
  marks "|"
  let args ← listUntil "|" (readClosureArgument self)
  let qualifiers := String.join qualifiers
  if ← marks? "->" then
    let type ← self (.type true)
    return .closure binder qualifiers args (some type) (.block none (← readBlock self))
  else
    return .closure binder qualifiers args none (← self (.expr records 0))

/-- Whether lifetimes in angle brackets begin the tokens, and no path. -/
def parametersBegin : List Token → Bool
  | .mark '<' _ :: rest =>
    match rest with
    | .mark '>' _ :: _ | .mark '#' _ :: _ | .word "const" :: _ => true
    | .lifetime _ :: after => ends after
    | .word w :: after => isName w && ends after
    | _ => false
  | _ => false
where
  /-- Whether a parameter ends or is bounded before these tokens. -/
  ends (ts : List Token) : Bool :=
    beginsWith ">" ts || beginsWith "," ts || beginsWith "=" ts ||
      (beginsWith ":" ts && !beginsWith "::" ts)

def closureBegins : List Token → Bool
  | .mark '|' _ :: _ => true
  | .word w :: rest =>
    w == "move" || w == "static" || (w == "for" && parametersBegin rest) ||
      (w == "const" && !groupBegins .brace rest) ||
      (w == "async" && (beginsWith "|" rest || wordBegins "move" rest))
  | _ => false

def exprBegins (ts : List Token) : Bool :=
  match ts with
  | .word w :: _ => w != "as"
  | .group .. :: _ | .literal _ :: _ | .lifetime _ :: _ => true
  | _ =>
    (beginsWith "!" ts && !beginsWith "!=" ts) ||
      (beginsWith "-" ts && !beginsWith "-=" ts && !beginsWith "->" ts) ||
      (beginsWith "*" ts && !beginsWith "*=" ts) || (beginsWith "|" ts && !beginsWith "|=" ts) ||
      (beginsWith "&" ts && !beginsWith "&=" ts) || beginsWith ".." ts ||
      (beginsWith "<" ts && !beginsWith "<=" ts && !beginsWith "<<=" ts) ||
      beginsWith "::" ts || beginsWith "#" ts

def readJump (self : Descent) (records : Bool) (w : String) : Parse Tree := do
  match w with
  | "continue" => return .jump w (← optLifetime) none
  | "break" =>
    let label ← optLifetime
    if label.isSome && (← comes ":") then failure
    let taken : Parse Bool := return exprBegins (← get) && (records || !(← groupComes .brace))
    return .jump w label (← optionIf taken (self (.expr true 0)))
  | _ => return .jump w none (← optionIf (return exprBegins (← get)) (self (.expr true 0)))

def readCond (self : Descent) : Parse Tree := do
  keyword "if"
  let test ← self (.expr false 0)
  let yes ← readBlock self
  if ← word "else" then
    if ← wordComes "if" then return .cond test yes (some (← self .cond))
    else return .cond test yes (some (.block none (← readBlock self)))
  else return .cond test yes none

def readLoop (self : Descent) (label : Option String) : Parse Tree := do
  if ← word "while" then
    let test ← self (.expr false 0)
    return .whileLoop label test (← readBody self)
  else if ← word "for" then
    let p ← self .cases
    keyword "in"
    let e ← self (.expr false 0)
    return .forLoop label p e (← readBody self)
  else if ← word "loop" then return .endless label (← readBody self)
  else return .block label (← readBody self)

def readLabeled (self : Descent) : Parse Tree := do
  let name ← aLifetime
  marks ":"
  readLoop self (some name)

def readScope (self : Descent) : Parse Tree := do
  match ← get with
  | .word "unsafe" :: ts =>
    set ts
    return .scope "unsafe " (← readBody self)
  | .word "const" :: ts =>
    set ts
    return .scope "const " (← readBody self)
  | .word "try" :: ts =>
    set ts
    return .scope "try " (← readBlock self)
  | .word "async" :: ts =>
    set ts
    let moves ← qualifier "move"
    return .scope ("async " ++ moves) (← readBlock self)
  | _ => failure

/-- The body of a case: a block that is one expression stands for it, and the
    empty tuple is the empty block.  A block loses its attributes. -/
def armBody : Tree → Tree
  | .block none [.statement e false] => armBody e
  | .attributed _ (.block label body) => .block label body
  | .tuple [] => .block none []
  | e => e

def readArm (self : Descent) : Parse Tree := do
  let attrs ← outerAttrs self
  let p ← self .cases
  let guard ← optionIf (word "if") (self (.expr true 0))
  marks "=>"
  let body ← self .first
  let comma ← marks? ","
  if comma || isBlockLike body || (← atEnd) then
    return (Tree.arm p guard (armBody body)).withAttrs attrs
  else failure

def readMatch (self : Descent) : Parse Tree := do
  keyword "match"
  let e ← self (.expr false 0)
  inside .brace do
    let attrs ← innerAttrs self
    return .cases e (attrs ++ (← manyToEnd (readArm self)))

def readBlockLike (self : Descent) : Parse Tree := do
  match ← get with
  | .word "if" :: _ => readCond self
  | .word "match" :: _ => readMatch self
  | .word "unsafe" :: _ | .word "const" :: _ | .word "try" :: _ | .word "async" :: _ =>
    readScope self
  | .lifetime _ :: _ => readLabeled self
  | _ => readLoop self none

def blockLikeBegins : List Token → Bool
  | .group .brace _ :: _ | .lifetime _ :: _ => true
  | .word w :: rest =>
    ["if", "while", "loop", "match", "unsafe"].contains w ||
      (w == "for" && !parametersBegin rest) ||
      ((w == "try" || w == "const") && groupBegins .brace rest)
  | _ => false

def asyncBlockBegins : List Token → Bool
  | .word "async" :: .group .brace _ :: _ => true
  | .word "async" :: .word "move" :: .group .brace _ :: _ => true
  | _ => false

def readArray (self : Descent) : Parse Tree :=
  inside .bracket do
    if ← atEnd then return .array []
    let first ← self (.expr true 0)
    if ← marks? ";" then return .repeated first (← self (.expr true 0))
    if ← atEnd then return .array [first]
    marks ","
    return .array (first :: (← commaList (self (.expr true 0))).1)

def readKeywordAtom (self : Descent) (records : Bool) (w : String) : Parse Tree := do
  keyword w
  match w with
  | "let" =>
    let p ← self .cases
    marks "="
    return .binds p (← self (.expr records compareLevel))
  | "become" =>
    discard (self (.expr true 0))
    return .unset
  | "_" => return .hole
  | _ => readJump self records w

def readAtom (self : Descent) (records : Bool) : Parse Tree := do
  let ts ← get
  if (literalOf ts).isSome then aLiteral
  else if asyncBlockBegins ts || (wordBegins "try" ts && groupBegins .brace (ts.drop 1)) then
    readScope self
  else if closureBegins ts then readClosure self records
  else if blockLikeBegins ts then readBlockLike self
  else
    match ts with
    | .word "builtin" :: .mark '#' _ :: rest =>
      set rest
      discard identifier
      match ← anyGroup with
      | (.paren, _) => return .unset
      | _ => failure
    | .word w :: _ =>
      if ["let", "become", "_", "break", "continue", "return", "yield"].contains w then
        readKeywordAtom self records w
      else if w == "try" && !(beginsWith "!" (ts.drop 1) || beginsWith "::" (ts.drop 1)) then failure
      else readPathExpr self records
    | .group .paren _ :: _ =>
      match ← inside .paren (commaList (self (.expr true 0))) with
      | ([e], false) => return .paren e
      | (es, _) => return .tuple es
    | .group .bracket _ :: _ => readArray self
    | .mark '.' _ :: _ =>
      let closed ← rangeSign
      return .range closed none (← readUpper self records closed)
    | _ => readPathExpr self records

def readUnary (self : Descent) (records : Bool) : Parse Tree := do
  let attrs ← outerAttrs self
  match ← get with
  | .mark '&' _ :: .word "raw" :: .word "const" :: ts =>
    set ts
    return (Tree.address false (← self (.unary records))).withAttrs attrs
  | .mark '&' _ :: .word "raw" :: .word "mut" :: ts =>
    set ts
    return (Tree.address true (← self (.unary records))).withAttrs attrs
  | .mark '&' _ :: ts =>
    set ts
    let mutable ← word "mut"
    return (Tree.reference mutable (← self (.unary records))).withAttrs attrs
  | .mark '*' _ :: ts => apply '*' ts attrs
  | .mark '!' _ :: ts => apply '!' ts attrs
  | .mark '-' _ :: ts => apply '-' ts attrs
  | _ =>
    let e ← readTrailers self (← readAtom self records)
    if isRange e && !attrs.isEmpty then failure
    return e.withAttrs attrs
where
  apply (op : Char) (ts : List Token) (attrs : List Tree) : Parse Tree := do
    set ts
    return (Tree.unary op (← self (.unary records))).withAttrs attrs

/-- Reads an expression that stands first in a statement or case: a block
    ends it, unless a call or the like follows. -/
def readFirst (self : Descent) : Parse Tree := do
  let attrs ← outerAttrs self
  let e ← if blockLikeBegins (← get) then readBlockLike self else self (.unary true)
  if !isBlockLike e then
    readOperations self true 0 (e.withAttrs attrs)
  else if (← comesOnly "." [".."]) || (← comes "?") then
    let e ← readTrailers self e
    readOperations self true 0 (e.withAttrs attrs)
  else
    return e.withAttrs attrs

end Bindery.Source

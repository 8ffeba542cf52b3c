/-
  Putting together patterns, expressions and statements whose parts are set.
-/
import Bindery.Source.Layout.Shape

namespace Bindery.Source

/-! ## Lists -/

def joined (s : String) (items : List (List Doc)) : List Doc := (txt s).intercalate items

/-- Items with a break and a text before each but the first. -/
def broken (s : String) (items : List (List Doc)) : List Doc := [blankBreak, .text s].intercalate items

/-- What comes after a text if it is there. -/
def optionDocs (s : String) : Option (List Doc) → List Doc
  | some d => .text s :: d
  | none => []

def outputDocs (type : Option (List Doc)) : List Doc := optionDocs " -> " type

/-- The items with the trees that are lifetimes, and then the others. -/
def lifetimesFirst (ts : List Tree) (ds : List (List Doc)) : List (List Doc) :=
  let (lifetimes, others) := (ts.zip ds).partition fun (t, _) => isLifetime t
  (lifetimes ++ others).map (·.2)

def genericsOf (turbofish : Bool) (ts : List Tree) (ds : List (List Doc)) : List Doc :=
  if ts.isEmpty then []
  else txt (if turbofish then "::<" else "<") ++ listed (lifetimesFirst ts ds) ++ txt ">"

/-- Arguments with commas between them.  Nothing follows those beyond the ones
    listed. -/
def inputDocs (ts : List Tree) (ds : List (List Doc)) : List Doc :=
  match ts.getLast?.any isVariadic, ds.reverse with
  | true, d :: before => (before.reverse.flatMap (· ++ [.text ",", blankBreak])) ++ d ++ [softBreak]
  | _, _ => commas ds

/-- The arguments of a call.  A single one that has brackets of its own is
    set without breaks. -/
def argumentDocs (ts : List Tree) (ds : List (List Doc)) : List Doc :=
  match ts, ds with
  | [t], [d] => if isBracketed t then d else listed [d]
  | _, _ => listed ds

/-- A tuple; a single part is followed by a comma, if `trailing` says so. -/
def tupleDocs (trailing : Bool) (ds : List (List Doc)) : List Doc :=
  .text "(" :: (match ds with
    | [d] =>
      cbox step (shiftLast (-step) (softBreak :: d ++ (if trailing then txt "," else []) ++ [softBreak]))
    | ds => listed ds) ++ txt ")"

/-- An array.  Small literals are set as many on a line as fit. -/
def arrayDocs (ts : List Tree) (ds : List (List Doc)) : List Doc :=
  if ts.isEmpty then txt "[]"
  else if ts.all isSmallLiteral then
    cbox step (shiftLast (-step) (.text "[" :: softBreak ::
      ibox 0 ([.text ",", blankBreak].intercalate ds) ++ [endComma]) ++ txt "]")
  else .text "[" :: listed ds ++ txt "]"

def fieldsDocs (fields : List (List Doc)) (rest : List Doc) : List Doc :=
  let set := match fields.reverse with
    | [] => []
    | last :: before =>
      (before.reverse.flatMap (· ++ [.text ",", blankBreak])) ++ last ++
        (if rest.isEmpty then [endCommaOrBlank] else [.text ",", blankBreak])
  .text " \x7b" :: .brk { blank := 1, ifNonempty := true } :: set ++ rest

def recordWidth : Nat := 34

def recordDocs (path : List Doc) (fields : List (List Doc)) (rest : Option (List Doc)) :
    List Doc :=
  let tail := match rest with
    | some d => .text ".." :: d ++ [blankBreak]
    | none => []
  let inner := ibox (-step) path ++ fieldsDocs fields tail
  let forced := if widths inner > recordWidth then [Doc.strut boundless] else []
  cbox step (shiftLast (-step) inner ++ forced) ++ txt "\x7d"

def fieldsPatternDocs (path : List Doc) (fields : List (List Doc)) (rest : Option (List Doc)) :
    List Doc :=
  let tail := match rest with
    | some d => d ++ [blankBreak]
    | none => []
  cbox step (shiftLast (-step) (path ++ fieldsDocs fields tail)) ++ txt "\x7d"

/-! ## Blocks -/

def labelText : Option String → String
  | some name => "'" ++ name ++ ": "
  | none => ""

def blockDocs (statements : List Doc) : List Doc :=
  noBreak :: cbox step (shiftLast (-step) (hardBreakIfNonempty :: statements)) ++ txt "\x7d"

/-- An expression where a block could begin: in parentheses if it holds a
    record. -/
def guarded (e : Tree) (docs : List Doc) : List Doc :=
  if holdsRecord e then .text "(" :: docs ++ txt ")" else docs

def headDocs (e : Tree) (docs : List Doc) : List Doc :=
  cbox 0 (guarded e docs ++ [if endsHead e then blankBreak else .text " "])

def statementDocs (isLast : Bool) (t : Tree) (d : List Doc) : List Doc :=
  match t.bare with
  | .statement e ended =>
    let semicolon := if ended then !dropsSemicolon e else addsSemicolon e
    ibox 0 (d ++ if semicolon then txt ";" else []) ++ [hardBreak]
  | .expanded _ delimiter _ ended =>
    d ++ (if delimiter != .brace && (ended || !isLast) then txt ";" else []) ++ [hardBreak]
  | _ => d

def statementsDocs : List Tree → List (List Doc) → List Doc
  | [t], [d] => statementDocs true t d
  | t :: ts, d :: ds => statementDocs false t d ++ statementsDocs ts ds
  | _, _ => []

/-- The inside of a block that is set on one line if it is a single expression
    that fits. -/
def smallBody : List Tree → List (List Doc) → List Doc
  | .attr .. :: ts, d :: ds => d ++ smallBody ts ds
  | [.statement _ false], [d] => ibox 0 d ++ [blankBreak]
  | ts, ds => statementsDocs ts ds

def smallBlock (ts : List Tree) (ds : List (List Doc)) : List Doc :=
  if ts.isEmpty then txt "\x7b\x7d"
  else .text "\x7b" :: shiftLast (-step) (blankBreak :: smallBody ts ds) ++ txt "\x7d"

def largeBlock (ts : List Tree) (ds : List (List Doc)) : List Doc :=
  if ts.isEmpty then txt "\x7b\x7d"
  else .text "\x7b" :: shiftLast (-step) (hardBreak :: statementsDocs ts ds) ++ txt "\x7d"

/-- A block that ends a statement with a head. -/
def openBlock (ts : List Tree) (ds : List (List Doc)) : List Doc :=
  .text "\x7b" :: blockDocs (statementsDocs ts ds)

/-- A body in braces where it does not fit on the line.  One that cannot stand
    as a statement is put in parentheses.  The body of a case has a comma after
    it where a block does not end it. -/
def bracedDocs (isCase : Bool) (e : Tree) (docs : List Doc) : List Doc :=
  let stands := standsAsStatement e
  cbox step (.brk { before := some (if stands then '\x7b' else '(') } :: docs ++
    [.brk {
      offset := -step
      before := if stands && addsSemicolon e then some ';' else none
      after := if stands then "\x7d" else if isCase then ")," else ")"
      otherwise := if isCase && !isBlockLike e then some ',' else none }])

/-! ## Expressions -/

/-- A reference to a type, up to the type. -/
def refMark (lifetime : Option String) (mutable : Bool) : String :=
  "&" ++ (match lifetime with
    | some name => "'" ++ name ++ " "
    | none => "") ++ (if mutable then "mut " else "")

/-- A call of a method: of its receiver, its name with generic arguments, and
    its arguments. -/
def methodDocs (style : Style) (short : Bool) (receiver name arguments : List Doc) : List Doc :=
  style.link (receiver ++ (if short then [] else [softBreak]) ++ name ++
    cbox (if short && style.isWhole then -step else 0)
      (.text "(" :: arguments ++ txt ")"))

/-- The body of a case: a block, or an expression in braces where it does not
    fit on the line. -/
def armDocs (t : Tree) (d : List Doc) : List Doc :=
  match t with
  | .block .. => d
  | t => noBreak :: bracedDocs true t d

def closureDocs (front : List Doc) (args : List (List Doc)) (output : Option (List Doc))
    (body : Tree) (d : List Doc) : List Doc :=
  let params := match args with
    | [] => []
    | ds => softBreak :: [.text ",", blankBreak].intercalate ds
  let bar := front ++ .text "|" :: params
  match output with
  | none =>
    let braced := match body with
      | .cases .. | .call .. => false
      | body => !isBracketed body
    ibox 0 (shiftLast step (bar ++ [.text "|", blankBreak])) ++ noBreak ::
      if braced then bracedDocs false body d else d
  | some t =>
    ibox 0 ((if params.isEmpty then bar else shiftLast (-step) (bar ++ [endComma])) ++ txt "|") ++
      .text " -> " :: t ++ .text " " :: noBreak :: d

/-- A binding with its value and the block taken if it fails. -/
def bindingDocs (pattern : List Doc) (value otherwise : Option (List Doc)) : List Doc :=
  let init := match value with
    | some d => .text " = " :: noBreak :: d
    | none => []
  (match otherwise with
    | some d =>
      ibox 0 (.text "let " :: pattern ++ init ++ [blankBreak, .text "else "]) ++ noBreak :: cbox step d
    | none => ibox 0 (.text "let " :: pattern ++ init)) ++ [.text ";", hardBreak]

/-- A conditional: its head, its block and what follows `else`.  Without an
    `else` it is set on lines of its own, unless it follows one. -/
def condDocs (style : Style) (head : List Doc) (yes : List Tree) (ds : List (List Doc))
    (no : Option (List Doc)) : List Doc :=
  style.branch (.text "if " :: cbox (-step) head ++ match no with
    | some d => smallBlock yes ds ++ .text " else " :: d
    | none => if style = .tail then smallBlock yes ds else largeBlock yes ds)

end Bindery.Source

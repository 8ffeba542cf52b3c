/-
  Tokens of Rust source, and cutting a text into them.

  A token is a word, a mark of punctuation, a literal, a lifetime or a
  bracketed group of tokens.  An operator of several characters is a run of
  marks that stand close together, so that `>>` can close two brackets.  A
  comment that documents something stands for an attribute.
  `tokens?` gives nothing for a text whose brackets do not match or that holds
  something that is no token.
-/
import Bindery.Code.Name
import Bindery.Code.Units
import Bindery.Text.Blank

namespace Bindery.Source

open Text

inductive Delimiter where
  | paren
  | bracket
  | brace
deriving DecidableEq, Repr, Inhabited

/-- A token, or a group of tokens in brackets. -/
inductive Token where
  /-- An identifier or keyword. -/
  | word (text : String)
  /-- A mark, and whether another one follows at once. -/
  | mark (c : Char) (close : Bool)
  | literal (text : String)
  | lifetime (name : String)
  | group (d : Delimiter) (body : List Token)
deriving Repr, Inhabited

def markChars : List Char := "~!@#$%^&*-=+|;:,<.>/?".toList

/-! ## Blanks and comments -/

def isSeparator (c : Char) : Bool := isBlank c || c == '\u200e' || c == '\u200f'

/-- The text after a block comment that is open `depth` deep. -/
def afterBlockComment : Nat → List Char → Option (List Char)
  | _, [] => none
  | depth, '*' :: '/' :: cs => if depth ≤ 1 then some cs else afterBlockComment (depth - 1) cs
  | depth, '/' :: '*' :: cs => afterBlockComment (depth + 1) cs
  | depth, _ :: cs => afterBlockComment depth cs

/-- The text of a line, and what follows from the end of the line on. -/
def splitLine : List Char → List Char × List Char
  | [] => ([], [])
  | '\n' :: cs => ([], '\n' :: cs)
  | '\r' :: '\n' :: cs => ([], '\n' :: cs)
  | c :: cs =>
    let (line, rest) := splitLine cs
    (c :: line, rest)

def readOf (cs rest : List Char) : String := String.ofList (cs.take (cs.length - rest.length))

/-- The text of a block comment, given what follows its opening, and what
    follows it. -/
def splitBlockComment (cs : List Char) : Option (List Char × List Char) :=
  (afterBlockComment 1 cs).map fun rest => ((readOf cs rest).toList.dropLast.dropLast, rest)

/-- The documentation that a text begins with: whether it is of what it stands
    in, its own text, and what follows. -/
def docComment? : List Char → Option (Bool × List Char × List Char)
  | '/' :: '/' :: '!' :: cs => some (true, splitLine cs)
  | '/' :: '*' :: '!' :: cs => (splitBlockComment cs).map (true, ·)
  | '/' :: '/' :: '/' :: '/' :: _ => none
  | '/' :: '/' :: '/' :: cs => some (false, splitLine cs)
  | '/' :: '*' :: '*' :: '*' :: _ => none
  | '/' :: '*' :: '*' :: '/' :: _ => none
  | '/' :: '*' :: '*' :: cs => (splitBlockComment cs).map (false, ·)
  | _ => none

def hasBareReturn : List Char → Bool
  | [] => false
  | '\r' :: '\n' :: cs => hasBareReturn cs
  | c :: cs => c == '\r' || hasBareReturn cs

/-- The text after a comment that says nothing of what follows. -/
def afterComment? : List Char → Option (List Char)
  | '/' :: '/' :: cs => if (docComment? ('/' :: '/' :: cs)).isSome then none else some (splitLine cs).2
  | '/' :: '*' :: '*' :: '/' :: cs => some cs
  | '/' :: '*' :: '*' :: '*' :: cs => afterBlockComment 1 ('*' :: '*' :: cs)
  | '/' :: '*' :: '*' :: _ => none
  | '/' :: '*' :: '!' :: _ => none
  | '/' :: '*' :: cs => afterBlockComment 1 cs
  | _ => none

/-! ## Literals -/

inductive StringKind where
  | text
  | bytes
  /-- Characters other than the zero one, which ends the string. -/
  | terminated
deriving DecidableEq, Repr

def isHexDigit (c : Char) : Bool :=
  c.isDigit || ('a' ≤ c && c ≤ 'f') || ('A' ≤ c && c ≤ 'F')

/-- The value of hexadecimal digits, without `_`. -/
def hexValue (cs : List Char) : Nat :=
  cs.foldl (fun n c =>
    if c == '_' then n
    else 16 * n + (if c.isDigit then c.toNat - 48 else c.toLower.toNat - 87)) 0

/-- The text after an escape, given what follows the backslash. -/
def afterEscape (kind : StringKind) : List Char → Option (List Char)
  | 'x' :: a :: b :: cs =>
    let allowed := match kind with
      | .text => a ≤ '7'
      | .bytes => true
      | .terminated => a != '0' || b != '0'
    if isHexDigit a && isHexDigit b && allowed then some cs else none
  | 'u' :: '\x7b' :: cs =>
    let digits := cs.takeWhile fun c => isHexDigit c || c == '_'
    match cs.drop digits.length with
    | '\x7d' :: rest =>
      let count := (digits.filter (· != '_')).length
      let value := hexValue digits
      if kind != .bytes && digits.head? != some '_' && 0 < count && count ≤ 6 &&
          value.isValidChar && (kind = .text || value != 0) then
        some rest
      else none
    | _ => none
  | '0' :: cs => if kind = .terminated then none else some cs
  | c :: cs => if "nrt\\'\"".toList.contains c then some cs else none
  | [] => none

def isPlainIn (kind : StringKind) (c : Char) : Bool :=
  match kind with
  | .text => true
  | .bytes => c.toNat < 128
  | .terminated => c != '\x00'

/-- The text from the first character on that a string goes on with after a
    backslash at the end of a line, given what follows that line end, of which
    `last` is the last character. -/
def afterContinuation : Char → List Char → Option (List Char)
  | '\r', '\n' :: cs => afterContinuation '\n' cs
  | '\r', _ => none
  | _, c :: cs => if " \t\n\r".toList.contains c then afterContinuation c cs else some (c :: cs)
  | _, [] => none

def afterString (kind : StringKind) (cs : List Char) : Option (List Char) :=
  match cs with
  | [] => none
  | '"' :: rest => some rest
  | '\r' :: '\n' :: rest => afterString kind rest
  | '\r' :: _ => none
  | '\\' :: rest =>
    let next := match rest with
      | '\n' :: r => afterContinuation '\n' r
      | '\r' :: r => afterContinuation '\r' r
      | _ => afterEscape kind rest
    match next with
    | some r => if r.length ≤ rest.length then afterString kind r else none
    | none => none
  | c :: rest => if isPlainIn kind c then afterString kind rest else none
termination_by cs.length

/-- The text after a raw string with `hashes` hash marks, given what follows
    the opening quote. -/
def afterRawString (kind : StringKind) (hashes : Nat) : List Char → Option (List Char)
  | [] => none
  | '"' :: rest =>
    if (rest.takeWhile (· == '#')).length ≥ hashes then some (rest.drop hashes)
    else afterRawString kind hashes rest
  | '\r' :: '\n' :: rest => afterRawString kind hashes rest
  | '\r' :: _ => none
  | c :: rest => if isPlainIn kind c then afterRawString kind hashes rest else none

/-- The text after a raw string, given what follows its letters. -/
def afterRaw (kind : StringKind) (cs : List Char) : Option (List Char) :=
  let hashes := (cs.takeWhile (· == '#')).length
  match cs.drop hashes with
  | '"' :: body => if hashes ≤ 255 then afterRawString kind hashes body else none
  | _ => none

/-- The text after a character or byte between single quotes, given what follows
    the opening one. -/
def afterCharacter (kind : StringKind) : List Char → Option (List Char)
  | '\\' :: rest =>
    match afterEscape kind rest with
    | some ('\'' :: r) => some r
    | _ => none
  | c :: '\'' :: rest => if isPlainIn kind c then some rest else none
  | _ => none

def afterSuffix : List Char → List Char
  | [] => []
  | c :: cs => if isIdentStart c then cs.dropWhile isIdentContinue else c :: cs

def afterDigits (cs : List Char) : List Char := cs.dropWhile fun c => c.isDigit || c == '_'

def afterExponent (cs : List Char) : Option (List Char) :=
  let unsigned := match cs.dropWhile (· == '_') with
    | '+' :: r | '-' :: r => r.dropWhile (· == '_')
    | r => r
  if unsigned.head?.any (·.isDigit) then some (afterDigits unsigned) else none

def afterFraction (cs : List Char) : Option (List Char) :=
  match afterDigits cs with
  | '.' :: r =>
    if r.head?.any fun c => c == '.' || isIdentStart c then none
    else
      match afterDigits r with
      | 'e' :: r' => some ((afterExponent r').getD ('e' :: r'))
      | 'E' :: r' => some ((afterExponent r').getD ('E' :: r'))
      | r' => some r'
  | 'e' :: r | 'E' :: r => afterExponent r
  | _ => none

def afterBaseDigits (base : Nat) (cs : List Char) : Option (List Char) :=
  let digits := cs.takeWhile fun c => c == '_' || if base = 16 then isHexDigit c else c.isDigit
  if digits.all (· == '_') || digits.any (fun c => c.isDigit && base ≤ c.toNat - 48) then none
  else some (cs.drop digits.length)

def afterWhole : List Char → Option (List Char)
  | '0' :: 'x' :: cs => afterBaseDigits 16 cs
  | '0' :: 'o' :: cs => afterBaseDigits 8 cs
  | '0' :: 'b' :: cs => afterBaseDigits 2 cs
  | cs => afterBaseDigits 10 cs

/-- The text after a number: one with a fraction if it can be read so, else a
    whole one. -/
def afterNumber (cs : List Char) : Option (List Char) :=
  let ended (rest : List Char) : Option (List Char) :=
    let rest := afterSuffix rest
    if rest.head?.any isIdentContinue then none else some rest
  ((afterFraction cs).bind ended) <|> ((afterWhole cs).bind ended)

def afterLiteral (cs : List Char) : Option (List Char) :=
  match cs with
  | '"' :: rest => (afterString .text rest).map afterSuffix
  | '\'' :: rest => (afterCharacter .text rest).map afterSuffix
  | 'r' :: rest => (afterRaw .text rest).map afterSuffix
  | 'b' :: '"' :: rest => (afterString .bytes rest).map afterSuffix
  | 'b' :: 'r' :: rest => (afterRaw .bytes rest).map afterSuffix
  | 'b' :: '\'' :: rest => (afterCharacter .bytes rest).map afterSuffix
  | 'c' :: '"' :: rest => (afterString .terminated rest).map afterSuffix
  | 'c' :: 'r' :: rest => (afterRaw .terminated rest).map afterSuffix
  | c :: _ => if c.isDigit then afterNumber cs else none
  | [] => none

/-! ## Tokens -/

def afterWord (cs : List Char) : Option (List Char) :=
  match cs with
  | [] => none
  | c :: rest => if isIdentStart c then some (rest.dropWhile isIdentContinue) else none

/-- The words that are no raw identifiers. -/
def notRaw : List String := ["_", "super", "self", "Self", "crate"]

/-- A piece of source: a token without brackets, or a bracket. -/
inductive Lexeme where
  | token (t : Token)
  | opened (d : Delimiter)
  | closed (d : Delimiter)
deriving Repr, Inhabited

def anyWord? (cs : List Char) : Option (String × List Char) :=
  match cs with
  | 'r' :: '#' :: rest =>
    match afterWord rest with
    | some r => if notRaw.contains (readOf rest r) then none else some (readOf cs r, r)
    | none => none
  | _ => (afterWord cs).map fun r => (readOf cs r, r)

/-- What begins a literal, so that it begins no word. -/
def literalFronts : List String :=
  ["r\"", "r#\"", "r##", "b\"", "b'", "br\"", "br#", "c\"", "cr\"", "cr#"]

/-- A word that cannot be taken for the front of a literal. -/
def word? (cs : List Char) : Option (String × List Char) :=
  if literalFronts.any (·.toList.isPrefixOf cs) then none else anyWord? cs

def mark? : List Char → Option (Char × List Char)
  | '/' :: '/' :: _ => none
  | '/' :: '*' :: _ => none
  | c :: rest => if markChars.contains c then some (c, rest) else none
  | [] => none

def lifetime? : List Char → Option (String × List Char)
  | '\'' :: rest =>
    match anyWord? rest with
    | some (name, r) =>
      if r.head? == some '\'' || (r.head? == some '#' && !"r#".toList.isPrefixOf rest) then none
      else some (name, r)
    | none => none
  | _ => none

def placeholder : List Char := "(/*ERROR*/)".toList

def lexeme? (cs : List Char) : Option (Lexeme × List Char) :=
  match cs with
  | '(' :: rest =>
    if placeholder.isPrefixOf cs then
      some (.token (.literal (String.ofList placeholder)), cs.drop placeholder.length)
    else some (.opened .paren, rest)
  | '[' :: rest => some (.opened .bracket, rest)
  | '\x7b' :: rest => some (.opened .brace, rest)
  | ')' :: rest => some (.closed .paren, rest)
  | ']' :: rest => some (.closed .bracket, rest)
  | '\x7d' :: rest => some (.closed .brace, rest)
  | _ =>
    match afterLiteral cs with
    | some rest => some (.token (.literal (readOf cs rest)), rest)
    | none =>
      match mark? cs with
      | some (c, rest) =>
        some (.token (.mark c ((mark? rest).isSome || rest.head? == some '\'')), rest)
      | none =>
        match word? cs with
        | some (name, rest) => some (.token (.word name), rest)
        | none => (lifetime? cs).map fun (name, rest) => (.token (.lifetime name), rest)

def docLexemes (inner : Bool) (text : List Char) : List Lexeme :=
  .token (.mark '#' false) :: (if inner then [.token (.mark '!' false)] else []) ++
    [.opened .bracket, .token (.word "doc"), .token (.mark '=' false),
      .token (.literal (Code.literal (String.ofList text))), .closed .bracket]

/-- The pieces that a text begins with, none for a comment, and what follows. -/
def step? (cs : List Char) : Option (List Lexeme × List Char) :=
  match afterComment? cs, docComment? cs with
  | some rest, _ => some ([], rest)
  | none, some (inner, text, rest) =>
    if hasBareReturn text then none else some (docLexemes inner text, rest)
  | none, none => (lexeme? cs).map fun (l, rest) => ([l], rest)

def lexemes? (cs : List Char) : Option (List Lexeme) :=
  match cs with
  | [] => some []
  | c :: rest =>
    if isSeparator c then lexemes? rest
    else
      match step? (c :: rest) with
      | some (ls, r) => if r.length ≤ rest.length then (lexemes? r).map (ls ++ ·) else none
      | none => none
termination_by cs.length

/-- The tokens of the pieces.  `outer` holds the groups around the current
    one, the innermost first, each with the tokens before it; `before` holds the
    tokens of the current group.  Both have the last token first. -/
def grouped : List (Delimiter × List Token) → List Token → List Lexeme → Option (List Token)
  | [], before, [] => some before.reverse
  | _ :: _, _, [] => none
  | outer, before, .token t :: rest => grouped outer (t :: before) rest
  | outer, before, .opened d :: rest => grouped ((d, before) :: outer) [] rest
  | [], _, .closed _ :: _ => none
  | (d, around) :: outer, before, .closed d' :: rest =>
    if d = d' then grouped outer (.group d before.reverse :: around) rest else none

def tokens? (s : String) : Option (List Token) :=
  let cs := match s.toList with
    | '\ufeff' :: cs => cs
    | cs => cs
  (lexemes? cs).bind (grouped [] [])

end Bindery.Source

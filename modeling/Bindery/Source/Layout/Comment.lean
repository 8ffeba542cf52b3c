/-
  Comments and attributes.

  An attribute that holds a text for readers is set as a comment where the text
  can be written as one.
-/
import Bindery.Code.Units
import Bindery.Source.Doc
import Bindery.Source.Literal
import Bindery.Source.Tree

namespace Bindery.Source

def trimBlanks (cs : List Char) : List Char := (cs.reverse.dropWhile (· == ' ')).reverse

/-- The text with blanks removed at the end of every line but the last. -/
def trimLines (cs : List Char) : List Char :=
  let lines := cs.splitOnP (· == '\n')
  ['\n'].intercalate (lines.dropLast.map trimBlanks ++ lines.drop (lines.length - 1))

/-- Whether the comments that begin and end in a text match, `depth` of them
    being open before it. -/
def commentsMatch : Nat → List Char → Bool
  | depth, '/' :: '*' :: cs => commentsMatch (depth + 1) cs
  | 0, '*' :: '/' :: _ => false
  | depth + 1, '*' :: '/' :: cs => commentsMatch depth cs
  | depth, _ :: cs => commentsMatch depth cs
  | depth, [] => depth == 0

/-- How comments of a kind begin, and how the text of one may not. -/
structure CommentKind where
  line : String
  block : String
  notInLine : List Char
  notInBlock : List Char

/-- Comments that document what follows. -/
def CommentKind.outer : CommentKind := ⟨"///", "/**", ['/'], ['*', '/']⟩

/-- Comments that document what they stand in. -/
def CommentKind.inner : CommentKind := ⟨"//!", "/*!", [], []⟩

/-- Comments that document nothing. -/
def CommentKind.plain : CommentKind := ⟨"//", "/*", [], ['*', '!']⟩

/-- The comment, if the text can be written as one. -/
def CommentKind.write? (kind : CommentKind) (text : String) : Option (List Doc) :=
  let cs := text.toList
  if !cs.contains '\n' && !cs.head?.any kind.notInLine.contains then
    some [.text kind.line, .text (String.ofList (trimBlanks cs)), hardBreak]
  else if commentsMatch 0 cs && !cs.head?.any kind.notInBlock.contains then
    some [.text kind.block, .text (String.ofList (trimLines cs)), .text "*/", hardBreak]
  else none

/-- A text that documents what follows, or, if `inner`, what it stands in. -/
def documentation (inner : Bool) (doc : String) : List Doc :=
  match (if inner then CommentKind.inner else .outer).write? doc with
  | some ds => ds
  | none =>
    [.text (if inner then "#![doc = " else "#[doc = "), .text (Code.literal doc), .text "]",
      blankBreak]

def commentOf (inner : Bool) (path : Tree) (value : Option Tree) : Option (List Doc) := do
  let .path false [.segment name _ []] := path | none
  let some (.literal s) := value | none
  let text ← if isStringText s then stringValue? s else none
  if name == "doc" then (if inner then CommentKind.inner else .outer).write? text
  else if name == "comment" then CommentKind.plain.write? text
  else none

/-! ## Tokens of an attribute -/

/-- The tokens of an attribute.  `afterWord` says whether a word or literal
    comes before them. -/
def attrTokens (afterWord : Bool) : List Token → List Doc
  | [] => []
  | .word w :: ts => spaced afterWord ++ .text w :: attrTokens true ts
  | .literal s :: ts => spaced afterWord ++ .text s :: attrTokens true ts
  | .lifetime name :: ts => .text ("'" ++ name) :: attrTokens true ts
  | [.mark ',' _] => [endComma]
  | .mark c _ :: ts =>
    (if afterWord && c == '=' then txt " " else []) ++ .text (String.singleton c) ::
      (if c == '=' then txt " " else if c == ',' then [blankBreak] else []) ++ attrTokens false ts
  | .group d body :: ts =>
    let inner := attrTokens false body
    (match d with
      | .paren => .text "(" :: cbox step (shiftLast (-step)
          (softBreak :: inner ++ if endsInComma body then [] else [softBreak])) ++ txt ")"
      | .bracket => .text "[" :: inner ++ txt "]"
      | .brace => .text "\x7b" :: inner ++ txt "\x7d") ++ attrTokens false ts
where
  spaced (afterWord : Bool) : List Doc := if afterWord then [blankBreak] else []
  endsInComma (ts : List Token) : Bool :=
    match ts.getLast? with
    | some (.mark ',' _) => true
    | _ => false

def attrDocs (inner : Bool) (path value : List Doc) : List Doc :=
  .text (if inner then "#![" else "#[") :: path ++ value ++ [.text "]", blankBreak]

end Bindery.Source

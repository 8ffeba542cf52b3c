/-
  Tokens of an expansion.

  What an expansion is given is not read as syntax; its tokens are set with
  blanks as they look like code.  The rules of a named expansion are set one
  after the other, each with what it matches and what stands for it.
-/
import Bindery.Source.Doc
import Bindery.Source.Token

namespace Bindery.Source

/-- What the last token of an expansion allows to follow without a blank. -/
inductive TokenState where
  | start
  | dollar
  | dollarWord
  | dollarColon
  | dollarGroup
  | dollarSeparator
  | pound
  | poundBang
  | point
  | colon
  | colons
  | word
  | wordBang
  | bracket
  | other
deriving DecidableEq, Repr

/-- The words between which and a bracket a blank is set. -/
def spacedWords : List String :=
  ["as", "async", "await", "box", "break", "const", "continue", "crate", "dyn", "else", "enum",
    "extern", "fn", "for", "if", "impl", "in", "let", "loop", "macro", "match", "mod", "move", "mut",
    "pub", "ref", "return", "static", "struct", "super", "trait", "type", "unsafe", "use", "where",
    "while", "yield"]

/-- Whether a blank comes before a token, and the state after it.  `matcher`
    says whether the tokens are what a rule matches. -/
def spacing (matcher : Bool) : TokenState → Token → Bool × TokenState
  | .dollar, .word _ => (false, if matcher then .dollarWord else .other)
  | .dollarWord, .mark ':' false => (false, .dollarColon)
  | .dollarColon, .word _ => (false, .other)
  | .dollarGroup, .mark c false =>
    (false, if c == '+' || c == '*' || c == '?' then .other else .dollarSeparator)
  | .dollarGroup, .word _ | .dollarGroup, .literal _ => (false, .dollarSeparator)
  | .dollarGroup, .mark _ true => (false, .dollarGroup)
  | .dollarGroup, .lifetime _ => (false, .dollarSeparator)
  | .dollarSeparator, .mark '+' _ | .dollarSeparator, .mark '*' _ => (false, .other)
  | .pound, .mark '!' _ => (false, .poundBang)
  | .dollar, .group .paren _ => (false, .dollarGroup)
  | .pound, .group .bracket _ | .poundBang, .group .bracket _ => (false, .other)
  | .word, .group .paren _ | .word, .group .bracket _ => (false, .bracket)
  | .word, .mark '!' false => (false, .wordBang)
  | .wordBang, .group .paren _ | .wordBang, .group .bracket _ => (false, .other)
  | .colon, .mark ':' _ => (false, .colons)
  | _, .group .paren _ | _, .group .bracket _ => (true, .bracket)
  | _, .group .brace _ => (true, .other)
  | s, .word w => if spacedWords.contains w then (true, .other) else (s != .point && s != .colons, .word)
  | s, .literal _ => (s != .point, .word)
  | _, .lifetime name => (true, if spacedWords.contains name then .other else .word)
  | _, .mark ',' _ | _, .mark ';' _ => (false, .other)
  | s, .mark '.' _ => if matcher then (true, .other) else (s != .word && s != .bracket, .point)
  | s, .mark ':' true => (s != .word, .colon)
  | _, .mark '$' _ => (true, .dollar)
  | _, .mark '#' _ => (true, .pound)
  | _, _ => (true, .other)

def Delimiter.brackets : Delimiter → String × String
  | .paren => ("(", ")")
  | .bracket => ("[", "]")
  | .brace => ("\x7b", "\x7d")

/-- The tokens of an expansion.  `close` says whether the token before stands
    close to the next. -/
def tokenDocs (matcher : Bool) (state : TokenState) (close : Bool) : List Token → List Doc
  | [] => []
  | t :: ts =>
    let (blank, next) := spacing matcher state t
    let between :=
      if close then []
      else if blank then [blankBreak]
      else match t with
        | .mark '.' _ => [softBreak]
        | _ => []
    let set := match t with
      | .word w => txt w
      | .literal s => txt s
      | .lifetime name => txt ("'" ++ name)
      | .mark c _ => txt (String.singleton c)
      | .group d body =>
        let blank := if d == .brace && !body.isEmpty then [blankBreak] else []
        .text d.brackets.1 :: blank ++ tokenDocs matcher .start true body ++ blank ++
          txt d.brackets.2
    let closes := match t with
      | .mark c close => close || c == '$'
      | _ => false
    between ++ set ++ tokenDocs matcher next closes ts

def enclosed (matcher : Bool) (brk : Doc) (body : List Token) : List Doc :=
  if body.isEmpty then []
  else cbox step (shiftLast (-step) (brk :: ibox 0 (tokenDocs matcher .start true body) ++ [brk]))

def expansionDocs (name : Option String) (d : Delimiter) (body : List Token) : List Doc :=
  txt "!" ++ (match name with
    | some name => txt (" " ++ name)
    | none => []) ++
    match d with
    | .paren => .text "(" :: enclosed false softBreak body ++ txt ")"
    | .bracket => .text "[" :: enclosed false softBreak body ++ txt "]"
    | .brace => .text " \x7b" :: enclosed false hardBreak body ++ txt "\x7d"

/-! ## Rules -/

inductive RuleState where
  | matcher
  | equals
  | greater
  | expander
  | semicolon
deriving DecidableEq, Repr

def ruleDocs : RuleState → List Token → List Doc
  | .matcher, [] => []
  | .semicolon, [] => [.text ";", hardBreak]
  | _, [] => [hardBreak]
  | .matcher, .group d body :: ts =>
    .text d.brackets.1 :: enclosed true softBreak body ++ .text d.brackets.2 :: ruleDocs .equals ts
  | .equals, .mark '=' true :: ts => .text " =" :: ruleDocs .greater ts
  | .greater, .mark '>' false :: ts => .text ">" :: ruleDocs .expander ts
  | .expander, .group _ body :: ts =>
    .text " \x7b" :: noBreak :: enclosed false hardBreak body ++ .text "\x7d" ::
      ruleDocs .semicolon ts
  | .semicolon, .mark ';' false :: ts => .text ";" :: hardBreak :: ruleDocs .matcher ts
  | _, _ => [.gap]

def rulesDocs (name : String) (body : List Token) : List Doc :=
  .text ("macro_rules! " ++ name ++ " \x7b") ::
    cbox step (shiftLast (-step) (hardBreakIfNonempty :: ruleDocs .matcher body)) ++ txt "\x7d"

end Bindery.Source

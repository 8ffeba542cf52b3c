/-
  What the shape of a tree decides about its layout.

  How an expression is set depends on where it stands (`Style`): on its own, as
  the front of a chain of calls and fields, which is broken before each point
  when it does not fit, as the body of a case, or after an `else`.  At the
  beginning of a line, a chain is not broken after a name so short that nothing
  is gained by it.
-/
import Bindery.Source.Doc
import Bindery.Source.Reading.Expr

namespace Bindery.Source

inductive Style where
  /-- On its own, perhaps at the beginning of a line. -/
  | whole (first : Bool)
  /-- As the front of a chain. -/
  | chain (first : Bool)
  /-- As the body of a case. -/
  | body
  /-- After an `else`. -/
  | tail
deriving DecidableEq, Repr

namespace Style

def first : Style → Bool
  | whole b | chain b => b
  | body => true
  | tail => false

def isWhole : Style → Bool
  | chain _ => false
  | _ => true

/-- The text of an expression that is no chain. -/
def wrap : Style → List Doc → List Doc
  | chain _, ds => cbox (-step) ds
  | _, ds => ds

/-- The text of an expression that is a chain. -/
def link : Style → List Doc → List Doc
  | chain _, ds => ds
  | _, ds => cbox step ds

/-- The text of a block, or of an expression that ends in one. -/
def branch : Style → List Doc → List Doc
  | tail, ds => ds
  | style, ds => style.wrap (cbox step ds)

def ofCallee : Style → Style
  | chain _ => chain false
  | style => whole style.first

/-- The style of an expression whose failure is handed on, or of which an
    element is taken. -/
def ofAttempt : Style → Style
  | chain b => chain b
  | style => whole style.first

def afterAttrs : Style → Style
  | chain _ => whole false
  | style => style

end Style

/-! ## Names and brackets -/

/-- Whether the tree is a name no longer than an indentation. -/
def isShortName : Tree → Bool
  | .path false [.segment name _ []] => decide ((name.utf8ByteSize : Int) ≤ step)
  | _ => false

/-- Whether the tree as the only argument of a call is set without breaks
    around it. -/
def isBracketed : Tree → Bool
  | .array _ | .block .. | .closure .. | .record .. | .tuple _ => true
  | .scope keywords _ => keywords != "try "
  | _ => false

def isSmallLiteral (t : Tree) : Bool :=
  match t.bare with
  | .literal s => isSmallText s
  | _ => false

/-- The alternatives of a pattern are set on one line each if one of them is
    more than a literal. -/
def isPlainPattern : Tree → Bool
  | .literal _ | .hole => true
  | _ => false

def isVariadic (t : Tree) : Bool :=
  match t.bare with
  | .variadic _ => true
  | _ => false

def isLifetime (t : Tree) : Bool :=
  match t.bare with
  | .lifetime _ | .lifetimeParameter .. => true
  | _ => false

def endsInGroup : Tree → Bool
  | .importPath _ t => endsInGroup t
  | .importGroup _ => true
  | _ => false

/-! ## Heads of blocks -/

/-- Whether a new line is to follow the head of a block when the head does not
    fit. -/
def endsHead : Tree → Bool
  | .assign .. | .binary .. | .cast .. | .field .. | .index .. | .method .. => true
  | .call f _ => endsHead f
  | .binds _ e | .paren e | .reference _ e | .attempt e | .unary _ e | .address _ e
  | .attributed _ e => endsHead e
  | .jump _ _ (some e) => endsHead e
  | .range _ _ (some e) => endsHead e
  | _ => false

def holdsRecord : Tree → Bool
  | .record .. => true
  | .assign l r | .binary _ l r => holdsRecord l || holdsRecord r
  | .attempt e | .unary _ e | .reference _ e | .cast e _ => holdsRecord e
  | .field e _ | .index e _ | .method e .. => holdsRecord e
  | _ => false

/-! ## Statements and cases -/

def updates : List String := ["<<=", ">>=", "+=", "-=", "*=", "/=", "%=", "^=", "&=", "|="]

def addsSemicolon : Tree → Bool
  | .assign .. | .jump .. => true
  | .binary op .. => updates.contains op
  | .attributed _ e => addsSemicolon e
  | _ => false

def dropsSemicolon : Tree → Bool
  | .forLoop .. | .whileLoop .. => true
  | .cond _ _ none => true
  | .cond _ _ (some e) => dropsSemicolon e
  | .attributed _ e => dropsSemicolon e
  | _ => false

/-- Whether the expression may stand as a statement: its first operand is no
    block, which would end the statement. -/
def standsAsStatement : Tree → Bool
  | .assign e _ | .binary _ e _ | .call e _ | .cast e _ | .index e _ | .range _ (some e) _ =>
    !isBlockLike e && standsAsStatement e
  | .field e _ | .method e .. | .attempt e | .attributed _ e => standsAsStatement e
  | _ => true

end Bindery.Source

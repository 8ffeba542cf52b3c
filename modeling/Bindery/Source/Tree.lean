/-
  Syntax trees of the Rust source that types, paths and function bodies are
  written in.

  Types, patterns, expressions, statements and items are trees of one kind;
  which of them may stand where is decided when they are read.
-/
import Bindery.Source.Token

namespace Bindery.Source

inductive Tree where
  -- Paths and their arguments
  /-- Segments joined by `::`, which also begins a rooted path. -/
  | path (rooted : Bool) (segments : List Tree)
  /-- Segments after a type in angle brackets, which may be seen as of a
      trait. -/
  | qualified (type : Tree) (trait : Option Tree) (segments : List Tree)
  /-- A name with generic arguments; in expressions `::` comes before them. -/
  | segment (name : String) (turbofish : Bool) (generics : List Tree)
  /-- A name with the types of a function, as in `Fn(A) -> B`. -/
  | callSegment (name : String) (inputs : List Tree) (output : Option Tree)
  | lifetime (name : String)
  /-- An associated type or constant that is given. -/
  | equation (segment value : Tree)
  /-- An associated type that is bounded. -/
  | constraint (segment : Tree) (bounds : List Tree)
  -- Bounds and parameters
  /-- Lifetimes that a type or bound holds for. -/
  | binder (parameters : List Tree)
  /-- A trait as a bound, perhaps in parentheses, which may fail to hold if it
      is relaxed. -/
  | bound (enclosed : Bool) (binder : Option Tree) (relaxed : Bool) (path : Tree)
  /-- The parameters that a hidden type may use. -/
  | captures (names : List String)
  | lifetimeParameter (name : String) (bounds : List String)
  | typeParameter (name : String) (bounds : List Tree) (default : Option Tree)
  | constParameter (name : String) (type : Tree) (default : Option Tree)
  | lifetimePredicate (name : String) (bounds : List String)
  | typePredicate (binder : Option Tree) (type : Tree) (bounds : List Tree)
  -- Types
  | refType (lifetime : Option String) (mutable : Bool) (type : Tree)
  | pointer (mutable : Bool) (type : Tree)
  | slice (type : Tree)
  | sized (type length : Tree)
  | never
  | object (bounds : List Tree)
  | hidden (bounds : List Tree)
  | function (binder : Option Tree) (qualifiers : String) (inputs : List Tree)
      (output : Option Tree)
  | variadic (pattern : Option Tree)
  -- What types, patterns and expressions share
  | hole
  | tuple (parts : List Tree)
  | paren (inner : Tree)
  | literal (text : String)
  | reference (mutable : Bool) (inner : Tree)
  | range (closed : Bool) (lower upper : Option Tree)
  | expansion (path : Tree) (d : Delimiter) (body : List Token)
  -- Patterns
  | name (byRef mutable : Bool) (name : String) (sub : Option Tree)
  | construct (path : Tree) (parts : List Tree)
  | fields (path : Tree) (fields : List Tree) (rest : Option Tree)
  | fieldPattern (member : String) (pattern : Tree)
  | parts (parts : List Tree)
  /-- A tuple, and whether a comma ends it. -/
  | group (parts : List Tree) (trailing : Bool)
  | either (cases : List Tree)
  /-- A pattern, field or argument with its type. -/
  | typed (pattern type : Tree)
  -- Expressions
  | unary (op : Char) (e : Tree)
  | address (mutable : Bool) (e : Tree)
  | binary (op : String) (l r : Tree)
  | assign (l r : Tree)
  | call (f : Tree) (args : List Tree)
  | method (receiver : Tree) (name : String) (generics args : List Tree)
  | field (e : Tree) (name : String)
  | index (e i : Tree)
  /-- An expression whose failure is handed on. -/
  | attempt (e : Tree)
  | cast (e type : Tree)
  | array (parts : List Tree)
  | repeated (e length : Tree)
  | block (label : Option String) (body : List Tree)
  /-- A block after keywords that say how it is run. -/
  | scope (keywords : String) (body : List Tree)
  | cond (test : Tree) (yes : List Tree) (no : Option Tree)
  /-- A test whether a value has a form. -/
  | binds (pattern e : Tree)
  /-- Cases, after the attributes of all of them. -/
  | cases (e : Tree) (arms : List Tree)
  | arm (pattern : Tree) (guard : Option Tree) (body : Tree)
  | whileLoop (label : Option String) (test : Tree) (body : List Tree)
  | endless (label : Option String) (body : List Tree)
  | forLoop (label : Option String) (pattern e : Tree) (body : List Tree)
  | closure (binder : Option Tree) (qualifiers : String) (args : List Tree) (output : Option Tree)
      (body : Tree)
  /-- A jump: its keyword, where to, and the value it takes along. -/
  | jump (keyword : String) (label : Option String) (e : Option Tree)
  | record (path : Tree) (fields : List Tree) (rest : Option Tree)
  | fieldValue (member : String) (value : Option Tree)
  -- Attributes
  /-- An attribute of what follows or, if `inner`, of what it stands in. -/
  | attr (inner : Bool) (path : Tree) (value : Option Tree)
  /-- The tokens in the brackets of an attribute. -/
  | listing (d : Delimiter) (body : List Token)
  | attributed (attrs : List Tree) (inner : Tree)
  -- Statements
  | empty
  | binding (pattern : Tree) (value : Option Tree) (otherwise : Option Tree)
  /-- An expression as a statement, and whether a semicolon ends it. -/
  | statement (e : Tree) (ended : Bool)
  /-- An expansion as a statement, and whether a semicolon ends it. -/
  | expanded (path : Tree) (d : Delimiter) (body : List Token) (ended : Bool)
  -- Items
  | definition (path : Tree) (name : Option String) (d : Delimiter) (body : List Token)
  | imports (head : String) (tree : Tree)
  | importPath (name : String) (tree : Tree)
  | importName (text : String)
  | importGroup (trees : List Tree)
  /-- An item without parts. -/
  | line (text : String)
  /-- A constant or static value. -/
  | value (head : String) (type : Tree) (value : Option Tree)
  | typeAlias (head : String) (generics : List Tree) (type : Tree) (predicates : List Tree)
  /-- A type of a trait or its implementation. -/
  | associated (head : String) (generics bounds : List Tree) (type : Option Tree)
      (predicates : List Tree)
  /-- A function, whose body may be left out. -/
  | functionItem (head : String) (generics inputs : List Tree) (output : Option Tree)
      (predicates : List Tree) (hasBody : Bool) (body : List Tree)
  /-- A type with fields that have names. -/
  | structItem (head : String) (generics predicates fields : List Tree)
  /-- A type with fields that have none, or with no fields. -/
  | tupleItem (head : String) (generics : List Tree) (fields : Option Tree) (predicates : List Tree)
  | enumItem (head : String) (generics predicates variants : List Tree)
  | variant (name : String) (fields : Option Tree) (value : Option Tree)
  | named (fields : List Tree)
  | unnamed (fields : List Tree)
  /-- A field, after who may see it and its name. -/
  | fieldItem (head : String) (type : Tree)
  | traitItem (head : String) (generics bounds predicates items : List Tree)
  | traitAlias (head : String) (generics bounds predicates : List Tree)
  | implementation (head : String) (generics : List Tree) (trait : Option Tree) (type : Tree)
      (predicates items : List Tree)
  /-- Items of a module or of other code. -/
  | moduleItem (head : String) (items : List Tree)
  /-- A form that is read and has no layout. -/
  | unset
deriving Inhabited

/-- The tree with attributes, before those it has. -/
def Tree.withAttrs (attrs : List Tree) (t : Tree) : Tree :=
  match attrs, t with
  | [], t => t
  | attrs, .attributed more t => .attributed (attrs ++ more) t
  | attrs, t => .attributed attrs t

def Tree.bare : Tree → Tree
  | .attributed _ t => t
  | t => t

end Bindery.Source

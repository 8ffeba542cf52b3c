/-
  Reading statements and items.
-/
import Bindery.Source.Reading.Expr
import Bindery.Source.Reading.Type

namespace Bindery.Source

/-! ## Parts of items -/

def readVisibility : Parse String := do
  if ← word "pub" then
    match ← get with
    | .group .paren [.word w] :: ts =>
      if ["crate", "self", "super"].contains w then
        set ts
        return "pub(" ++ w ++ ") "
      else return "pub "
    | .group .paren (.word "in" :: body) :: ts =>
      match plainPath body with
      | some (path, []) =>
        set ts
        return "pub(" ++ shown path ++ ") "
      | _ => failure
    | _ => return "pub "
  else return ""
where
  /-- A path without arguments as it is written, after `in` unless it is one
      keyword. -/
  shown : Tree → String
    | .path rooted segments =>
      let names := segments.filterMap fun
        | .segment name _ _ => some name
        | _ => none
      let text := (if rooted then "::" else "") ++ "::".intercalate names
      if ["crate", "self", "super"].contains text then text else "in " ++ text
    | _ => ""

def readItemParameter (self : Descent) : Parse Tree := do
  let ts ← get
  let attrs ← outerAttrs self
  if ← word "_" then
    return (Tree.typeParameter "_" [] none).withAttrs attrs
  else
    set ts
    readParameter self

def readParameters (self : Descent) : Parse (List Tree) := do
  if ← marks? "<" then listUntil ">" (readItemParameter self) else return []

def predicateEnds : Parse Bool := do
  let ts ← get
  return ts.isEmpty || groupBegins .brace ts || beginsWith "," ts || beginsWith ";" ts ||
    (beginsWith ":" ts && !beginsWith "::" ts) || beginsWith "=" ts

def readPredicate (self : Descent) : Parse Tree := do
  match ← get with
  | .lifetime name :: .mark ':' _ :: ts =>
    set ts
    return .lifetimePredicate name (← plusList predicateEnds aLifetime)
  | _ =>
    let binder ← readBinder? self
    let type ← self (.type true)
    marks ":"
    return .typePredicate binder type (← plusList predicateEnds (self (.bound false true)))

def readPredicateList (self : Descent) : Nat → Parse (List Tree)
  | 0 => failure
  | n + 1 => do
    if ← predicateEnds then return []
    let p ← readPredicate self
    if ← marks? "," then return p :: (← readPredicateList self n) else return [p]

def readWhere (self : Descent) : Parse (List Tree) := do
  if ← word "where" then readPredicateList self ((← get).length + 1) else return []

def readReceiver (self : Descent) : Parse Tree := do
  let isRef ← marks? "&"
  let lifetime ← if isRef then optLifetime else pure none
  let mutable ← word "mut"
  keyword "self"
  let name := (if isRef then "&" else "") ++ (lifetime.elim "" ("'" ++ · ++ " ")) ++
    (if mutable then "mut " else "") ++ "self"
  if ← marksIf (!isRef) ":" then
    return .typed (.literal name) (← self (.type true))
  else
    return .literal name

def isReceiver : Tree → Bool
  | .literal s | .typed (.literal s) _ => s.endsWith "self"
  | _ => false

def readArgument (self : Descent) : Parse Tree := do
  match ← get with
  | .word w :: .mark '<' _ :: _ =>
    if isName w then return .typed .hole (← self (.type true)) else plain
  | _ => plain
where
  plain : Parse Tree := do
    let p ← self .pattern
    marks ":"
    if ← marks? "..." then
      discard (marks? ",")
      return .variadic (some p)
    return .typed p (← self (.type true))

/-- Reads the arguments of a function, `n` at most; only the first one may be
    a receiver. -/
def readSignatureArguments (self : Descent) (first : Bool) : Nat → Parse (List Tree)
  | 0 => failure
  | n + 1 => do
    if ← atEnd then return []
    let attrs ← outerAttrs self
    if ← marks? "..." then
      discard (marks? ",")
      return [(Tree.variadic none).withAttrs attrs]
    let arg ← (readReceiver self) <|> (readArgument self)
    if isReceiver arg && !first then failure
    if let .variadic _ := arg then return [arg.withAttrs attrs]
    if ← atEnd then return [arg.withAttrs attrs]
    marks ","
    return arg.withAttrs attrs :: (← readSignatureArguments self false n)

def functionBegins (ts : List Token) : Bool :=
  let skip (w : String) (ts : List Token) := if wordBegins w ts then ts.drop 1 else ts
  let ts := skip "unsafe" (skip "async" (skip "const" ts))
  let ts := match ts with
    | .word "extern" :: .literal s :: rest => if isStringText s then rest else ts
    | .word "extern" :: rest => rest
    | _ => ts
  wordBegins "fn" ts

def readFunction (self : Descent) (head : String) : Parse Tree := do
  let qualifiers ← ["const", "async", "unsafe"].mapM qualifier
  let abi ← readAbi
  keyword "fn"
  let name ← identifier
  let generics ← readParameters self
  let inputs ← inside .paren (do readSignatureArguments self true ((← get).length + 1))
  let output ← optionIf (marks? "->") (self (.type true))
  let predicates ← readWhere self
  let hasBody := !(← marks? ";")
  let body ← if hasBody then readBody self else pure []
  return .functionItem (head ++ String.join qualifiers ++ abi ++ "fn " ++ name) generics inputs
    output predicates hasBody body

def readNamedField (self : Descent) : Parse Tree := do
  let attrs ← outerAttrs self
  let visibility ← readVisibility
  let name ← identifierOrHole
  marks ":"
  return (Tree.fieldItem (visibility ++ name ++ ": ") (← self (.type true))).withAttrs attrs

def readUnnamedField (self : Descent) : Parse Tree := do
  let attrs ← outerAttrs self
  let visibility ← readVisibility
  return (Tree.fieldItem visibility (← self (.type true))).withAttrs attrs

def readVariant (self : Descent) : Parse Tree := do
  let attrs ← outerAttrs self
  discard readVisibility
  let name ← identifier
  let fields ←
    if ← groupComes .brace then
      some <$> Tree.named <$> listIn .brace (readNamedField self)
    else if ← groupComes .paren then
      some <$> Tree.unnamed <$> listIn .paren (readUnnamedField self)
    else pure none
  let value ← optionIf (marks? "=") (self (.expr true 0))
  return (Tree.variant name fields value).withAttrs attrs

def readItemsBy (self : Descent) (p : Parse Tree) : Parse (List Tree) :=
  inside .brace do
    let attrs ← innerAttrs self
    return attrs ++ (← manyToEnd p)

def readSupertraits (self : Descent) : Parse (List Tree) := do
  if ← marks? ":" then
    plusList (return (← wordComes "where") || (← groupComes .brace)) (self (.bound false true))
  else return []

/-! ## Items -/

def readDefinition : Parse Tree := do
  let path ← plainPath
  marks "!"
  let name ← if ← word "try" then pure (some "try")
    else if ← nameComes then some <$> identifier
    else pure none
  let (d, body) ← anyGroup
  if d != .brace then marks ";"
  return .definition path name d body

def readImportTree (self : Descent) (root : Bool) : Parse Tree := do
  match ← get with
  | .mark '*' _ :: ts =>
    set ts
    return .importName "*"
  | .group .brace _ :: _ =>
    let trees ← listIn .brace do
      let rooted ← if root then marks? "::" else pure false
      let tree ← self (.importTree (root && !rooted))
      return if rooted then .unset else tree
    if trees.any isUnset then return .unset else return .importGroup trees
  | ts =>
    if !(segmentBegins ts || wordBegins "try" ts) || wordBegins "Self" ts then failure
    let name ← anyWord
    if ← marks? "::" then
      match ← self (.importTree false) with
      | .unset => return .unset
      | tree => return .importPath name tree
    else if ← word "as" then
      return .importName (name ++ " as " ++ (← identifierOrHole))
    else return .importName name
where
  isUnset : Tree → Bool
    | .unset => true
    | _ => false

def readImport (self : Descent) (visibility : String) : Parse Tree := do
  keyword "use"
  let rooted ← marks? "::"
  let tree ← self (.importTree !rooted)
  marks ";"
  match tree with
  | .unset => return .unset
  | tree => return .imports (visibility ++ "use " ++ (if rooted then "::" else "")) tree

def readRename : Parse String := do
  if ← word "as" then return " as " ++ (← identifierOrHole) else return ""

def readConst (self : Descent) (head : String) : Parse Tree := do
  keyword "const"
  let name ← identifierOrHole
  let hasGenerics ← comes "<"
  discard (readParameters self)
  marks ":"
  let type ← self (.type true)
  let value ← optionIf (marks? "=") (self (.expr true 0))
  let hasWhere ← wordComes "where"
  discard (readWhere self)
  marks ";"
  if hasGenerics || hasWhere || value.isNone then return .unset
  else return .value (head ++ "const " ++ name) type value

def readStatic (self : Descent) (visibility : String) (isForeign : Bool) : Parse Tree := do
  keyword "static"
  let mutable ← qualifier "mut"
  let name ← identifier
  if ← marks? "=" then
    discard (self (.expr true 0))
    marks ";"
    return .unset
  marks ":"
  let type ← self (.type true)
  let head := visibility ++ "static " ++ mutable ++ name
  if ← marks? "=" then
    let value ← self (.expr true 0)
    marks ";"
    return if isForeign then .unset else .value head type (some value)
  else
    marks ";"
    return if isForeign then .value head type none else .unset

structure TypeParts where
  name : String
  generics : List Tree
  bounds : Option (List Tree)
  type : Option Tree
  predicates : List Tree

def readTypeParts (self : Descent) (before after : Bool) : Parse TypeParts := do
  keyword "type"
  let name ← identifier
  let generics ← readParameters self
  let bounds ← if ← marks? ":" then
      some <$> plusList (return (← wordComes "where") || (← comes "=") || (← comes ";"))
        (self (.bound false true))
    else pure none
  let hasWhere ← wordComes "where"
  let early ← if before then readWhere self else pure []
  let type ← optionIf (marks? "=") (self (.type true))
  let late ← if after && !(before && hasWhere) then readWhere self else pure []
  marks ";"
  return ⟨name, generics, bounds, type, early ++ late⟩

def readAlias (self : Descent) (visibility : String) : Parse Tree := do
  let p ← readTypeParts self true false
  match p.type, p.bounds with
  | some type, none => return .typeAlias (visibility ++ "type " ++ p.name) p.generics type p.predicates
  | _, _ => return .unset

def readAssociated (self : Descent) (head : String) : Parse Tree := do
  let p ← readTypeParts self true true
  match p.type, p.bounds with
  | some type, none =>
    return .associated (head ++ "type " ++ p.name) p.generics [] (some type) p.predicates
  | _, _ => return .unset

def readStruct (self : Descent) (visibility : String) : Parse Tree := do
  keyword "struct"
  let name ← identifier
  let head := visibility ++ "struct " ++ name
  let generics ← readParameters self
  let hasWhere ← wordComes "where"
  let early ← readWhere self
  if !hasWhere && (← groupComes .paren) then
    let fields ← listIn .paren (readUnnamedField self)
    let predicates ← readWhere self
    marks ";"
    return .tupleItem head generics (some (.unnamed fields)) predicates
  else if ← groupComes .brace then
    return .structItem head generics early (← listIn .brace (readNamedField self))
  else
    marks ";"
    return .tupleItem head generics none early

def readEnum (self : Descent) (visibility : String) : Parse Tree := do
  keyword "enum"
  let name ← identifier
  let generics ← readParameters self
  let predicates ← readWhere self
  return .enumItem (visibility ++ "enum " ++ name) generics predicates
    (← listIn .brace (readVariant self))

def readUnion (self : Descent) (visibility : String) : Parse Tree := do
  keyword "union"
  let name ← identifier
  let generics ← readParameters self
  let predicates ← readWhere self
  return .structItem (visibility ++ "union " ++ name) generics predicates
    (← listIn .brace (readNamedField self))

/-- The function, or a form without layout if it has no body. -/
def requireBody : Tree → Tree
  | .functionItem _ _ _ _ _ false _ => .unset
  | t => t

def definitionBegins (ts : List Token) : Bool :=
  (segmentBegins ts && !wordBegins "Self" ts) || beginsWith "::" ts

def readImplItem (self : Descent) : Parse Tree := do
  let attrs ← outerAttrs self
  let visibility ← readVisibility
  let ts ← get
  let isDefault := wordBegins "default" ts && !beginsWith "!" (ts.drop 1)
  if isDefault then keyword "default"
  let head := visibility ++ if isDefault then "default " else ""
  let ts ← get
  let item ←
    if functionBegins ts then requireBody <$> readFunction self head
    else if wordBegins "const" ts then readConst self head
    else if wordBegins "type" ts then readAssociated self head
    else if head == "" && definitionBegins ts then readDefinition
    else failure
  return item.withAttrs attrs

def readTraitItem (self : Descent) : Parse Tree := do
  let attrs ← outerAttrs self
  let visibility ← readVisibility
  let ts ← get
  let isDefault := wordBegins "default" ts && !beginsWith "!" (ts.drop 1)
  if isDefault then keyword "default"
  let ts ← get
  let item ←
    if functionBegins ts then readFunction self ""
    else if wordBegins "const" ts then constant
    else if wordBegins "type" ts then do
      let p ← readTypeParts self false true
      pure (.associated ("type " ++ p.name) p.generics (p.bounds.getD []) p.type p.predicates)
    else if visibility == "" && !isDefault && definitionBegins ts then readDefinition
    else failure
  return if visibility != "" || isDefault then .unset else item.withAttrs attrs
where
  constant : Parse Tree := do
    keyword "const"
    let name ← identifierOrHole
    let hasGenerics ← comes "<"
    discard (readParameters self)
    marks ":"
    let type ← self (.type true)
    let value ← optionIf (marks? "=") (self (.expr true 0))
    let hasWhere ← wordComes "where"
    discard (readWhere self)
    marks ";"
    return if hasGenerics || hasWhere then .unset else .value ("const " ++ name) type value

def readForeignItem (self : Descent) : Parse Tree := do
  let attrs ← outerAttrs self
  let visibility ← readVisibility
  let ts ← get
  let isSafe := wordBegins "safe" ts && (functionBegins (ts.drop 1) || wordBegins "static" (ts.drop 1))
  if isSafe then keyword "safe"
  let isUnsafe := wordBegins "unsafe" ts && wordBegins "static" (ts.drop 1)
  if isUnsafe then keyword "unsafe"
  let ts ← get
  let item ←
    if functionBegins ts then do
      match ← readFunction self visibility with
      | .functionItem _ _ _ _ _ true _ => pure .unset
      | t => pure t
    else if wordBegins "static" ts then readStatic self visibility true
    else if wordBegins "type" ts then do
      let p ← readTypeParts self true false
      pure (if p.type.isSome || p.bounds.isSome then .unset
        else .associated (visibility ++ "type " ++ p.name) p.generics [] none p.predicates)
    else if visibility == "" && definitionBegins ts then readDefinition
    else failure
  return if isSafe || isUnsafe then .unset else item.withAttrs attrs

/-- Reads a trait after what comes before it, or another name for bounds where
    `allowsAlias` allows it. -/
def readTrait (self : Descent) (head : String) (allowsAlias : Bool) : Parse Tree := do
  keyword "trait"
  let head := head ++ "trait " ++ (← identifier)
  let generics ← readParameters self
  if ← marksIf allowsAlias "=" then
    let bounds ← plusList (return (← wordComes "where") || (← comes ";")) (self (.bound false true))
    let predicates ← readWhere self
    marks ";"
    return .traitAlias head generics bounds predicates
  else
    let bounds ← readSupertraits self
    let predicates ← readWhere self
    return .traitItem head generics bounds predicates (← readItemsBy self (readTraitItem self))

def readImplementation (self : Descent) (visibility : String) : Parse Tree := do
  let qualifiers ← ["default", "unsafe"].mapM qualifier
  keyword "impl"
  let generics ← if parametersBegin (← get) then readParameters self else pure []
  let ts ← get
  let isConst := wordBegins "const" ts || (beginsWith "?" ts && wordBegins "const" (ts.drop 1))
  if isConst then
    discard (marks? "?")
    keyword "const"
  let isNegative := beginsWith "!" (← get) && !groupBegins .brace ((← get).drop 1)
  if isNegative then marks "!"
  let first ← self (.type true)
  let ofTrait ← word "for"
  let type ← if ofTrait then self (.type true) else pure first
  if isNegative && !ofTrait then failure
  let predicates ← readWhere self
  let items ← readItemsBy self (readImplItem self)
  let trait := match first with
    | .path rooted segments => some (Tree.path rooted segments)
    | _ => none
  if visibility != "" || isConst || (ofTrait && trait.isNone) then return .unset
  else
    return .implementation (String.join qualifiers ++ "impl") generics
      (if ofTrait then trait.map fun t => if isNegative then .unary '!' t else t else none)
      type predicates items

def readModule (self : Descent) (visibility : String) : Parse Tree := do
  let isUnsafe ← qualifier "unsafe"
  keyword "mod"
  let name ← if ← word "try" then pure "try" else identifier
  let head := visibility ++ isUnsafe ++ "mod " ++ name
  if ← marks? ";" then return .line (head ++ ";")
  else return .moduleItem (head ++ " ") (← readItemsBy self (self .item))

def readForeign (self : Descent) : Parse Tree := do
  let isUnsafe ← qualifier "unsafe"
  let abi ← readAbi
  if abi == "" then failure
  return .moduleItem (isUnsafe ++ abi) (← readItemsBy self (readForeignItem self))

def readItemAfter (self : Descent) : Parse Tree := do
  let start ← get
  let visibility ← readVisibility
  let ts ← get
  let next := ts.drop 1
  if functionBegins ts then requireBody <$> readFunction self visibility
  else
    match ts with
    | .word "extern" :: .word "crate" :: rest =>
      set rest
      let name ← if ← word "self" then pure "self" else identifier
      let rename ← readRename
      marks ";"
      return .line (visibility ++ "extern crate " ++ name ++ rename ++ ";")
    | .word "extern" :: _ => if visibility == "" then readForeign self else failure
    | .word "use" :: _ => readImport self visibility
    | .word "static" :: _ => readStatic self visibility false
    | .word "const" :: _ => readConst self visibility
    | .word "unsafe" :: _ =>
      if wordBegins "trait" next || (wordBegins "auto" next && wordBegins "trait" (next.drop 1)) then
        keyword "unsafe"
        let auto ← qualifier "auto"
        readTrait self (visibility ++ "unsafe " ++ auto) false
      else if wordBegins "impl" next then readImplementation self visibility
      else if wordBegins "extern" next then
        if visibility == "" then readForeign self else failure
      else if wordBegins "mod" next then readModule self visibility
      else failure
    | .word "mod" :: _ => readModule self visibility
    | .word "type" :: _ => readAlias self visibility
    | .word "struct" :: _ => readStruct self visibility
    | .word "enum" :: _ => readEnum self visibility
    | .word "trait" :: _ => readTrait self visibility true
    | .word "impl" :: _ => readImplementation self visibility
    | .word "macro" :: rest =>
      set rest
      discard identifier
      let isMatcher ← groupComes .paren
      if isMatcher then discard anyGroup
      discard (inside .brace (do set ([] : List Token)))
      return .unset
    | .word w :: _ =>
      if w == "union" && nameBegins next then readUnion self visibility
      else if w == "auto" && wordBegins "trait" next then
        keyword "auto"
        readTrait self (visibility ++ "auto ") false
      else if w == "default" && !beginsWith "!" next then readImplementation self visibility
      else if visibility == "" && definitionBegins ts then
        set start
        readDefinition
      else failure
    | _ =>
      if visibility == "" && beginsWith "::" ts then readDefinition else failure

def readItem (self : Descent) : Parse Tree := do
  let attrs ← outerAttrs self
  return (← readItemAfter self).withAttrs attrs

/-! ## Statements -/

def itemBegins : List Token → Bool
  | .word w :: rest =>
    let after := rest.drop 1
    match w with
    | "pub" | "extern" | "use" | "fn" | "mod" | "type" | "struct" | "enum" | "trait" | "impl"
    | "macro" => true
    | "crate" => !beginsWith "::" rest
    | "static" => wordBegins "mut" rest || nameBegins rest
    | "const" =>
      !(groupBegins .brace rest || wordBegins "static" rest || wordBegins "move" rest ||
        beginsWith "|" rest || (wordBegins "async" rest &&
          !(wordBegins "unsafe" after || wordBegins "extern" after || wordBegins "fn" after)))
    | "unsafe" => !groupBegins .brace rest
    | "async" => wordBegins "unsafe" rest || wordBegins "extern" rest || wordBegins "fn" rest
    | "union" => nameBegins rest
    | "auto" => wordBegins "trait" rest
    | "default" => wordBegins "unsafe" rest || wordBegins "impl" rest
    | _ => false
  | _ => false

def endsWithBrace : Tree → Bool
  | .scope .. | .block .. | .forLoop .. | .cond .. | .endless .. | .cases .. | .record ..
  | .whileLoop .. => true
  | .assign _ r | .binary _ _ r => endsWithBrace r
  | .jump _ _ (some e) | .range _ _ (some e) => endsWithBrace e
  | .closure _ _ _ _ e | .binds _ e | .address _ e | .reference _ e | .unary _ e
  | .attributed _ e => endsWithBrace e
  | .cast _ type => endsWithBrace type
  | .expansion _ d _ => d == .brace
  | .refType _ _ t | .pointer _ t => endsWithBrace t
  | _ => false

def readLet (self : Descent) : Parse Tree := do
  keyword "let"
  let p ← self .pattern
  let p ← if ← marks? ":" then (Tree.typed p <$> self (.type true)) else pure p
  let value ← optionIf (marks? "=") (self (.expr true 0))
  let diverges ← if value.any (!endsWithBrace ·) then word "else" else pure false
  let otherwise ← optionIf (pure diverges) (Tree.block none <$> readBlock self)
  marks ";"
  return .binding p value otherwise

/-- The expression with attributes at its first operand. -/
def attrsAtFirst (attrs : List Tree) : Tree → Tree
  | .assign l r => .assign (attrsAtFirst attrs l) r
  | .binary op l r => .binary op (attrsAtFirst attrs l) r
  | .cast e t => .cast (attrsAtFirst attrs e) t
  | e => e.withAttrs attrs

/-- An expression as a statement.  An expansion that a semicolon or its brace
    ends is one on its own. -/
def statementOf (e : Tree) (ended : Bool) : Tree :=
  match e with
  | .expansion path d body =>
    if ended || d == .brace then .expanded path d body ended else .statement e ended
  | .attributed attrs (.expansion path d body) =>
    if ended || d == .brace then .attributed attrs (.expanded path d body ended)
    else .statement e ended
  | e => .statement e ended

def readExprStatement (self : Descent) (attrs : List Tree) : Parse Tree := do
  let e ← self .first
  let ended ← marks? ";"
  let isOwn := match e.bare with
    | .expansion _ d _ => d == .brace
    | _ => isBlockLike e
  if ended || isOwn || (← atEnd) then return statementOf (attrsAtFirst attrs e) ended
  else failure

def readStatement (self : Descent) : Parse Tree := do
  if ← marks? ";" then return .empty
  let attrs ← outerAttrs self
  let ts ← get
  match plainPath ts with
  | some (path, .mark '!' _ :: .group .brace body :: rest) =>
    if !(beginsWith "." rest && !beginsWith ".." rest || beginsWith "?" rest) then
      set rest
      let ended ← marks? ";"
      return (Tree.expanded path .brace body ended).withAttrs attrs
    else readExprStatement self attrs
  | some (_, .mark '!' _ :: .word w :: _) =>
    if isName w || w == "try" then return (← readItemAfter self).withAttrs attrs
    else readPlain ts attrs
  | _ => readPlain ts attrs
where
  readPlain (ts : List Token) (attrs : List Tree) : Parse Tree := do
    if wordBegins "let" ts then return (← readLet self).withAttrs attrs
    else if itemBegins ts then return (← readItemAfter self).withAttrs attrs
    else readExprStatement self attrs

def readPlainBlock (self : Descent) : Parse Tree :=
  inside .brace do
    return .block none (← manyToEnd (readStatement self))

def readOwnBlock (self : Descent) : Parse Tree :=
  inside .brace do
    let attrs ← innerAttrs self
    return .block none (attrs ++ (← manyToEnd (readStatement self)))

end Bindery.Source

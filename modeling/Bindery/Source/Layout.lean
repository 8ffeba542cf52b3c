/-
  Laying out syntax trees.

  `layout` is by recursion on the tree; how the parts of a tree are put together
  once they are set is for the modules before it.
-/
import Bindery.Source.Layout.Comment
import Bindery.Source.Layout.Item
import Bindery.Source.Layout.Token

namespace Bindery.Source

/-- An attribute of which path and value are set: as a comment, if it can be
    one. -/
def attributeDocs (inner : Bool) (path : Tree) (value : Option Tree) (pathSet : List Doc)
    (valueSet : Option (List Doc)) : List Doc :=
  match commentOf inner path value with
  | some ds => ds
  | none =>
    match value with
    | some (.listing ..) => attrDocs inner pathSet (valueSet.getD [])
    | _ => attrDocs inner pathSet (optionDocs " = " valueSet)

/-- A named expansion: rules, or tokens. -/
def definitionDocs (path : Tree) (pathSet : List Doc) (name : Option String) (d : Delimiter)
    (body : List Token) : List Doc :=
  match path, name with
  | .path false [.segment "macro_rules" _ []], some name => rulesDocs name body ++ [hardBreak]
  | _, name =>
    pathSet ++ expansionDocs name d body ++ (if d == .brace then [] else txt ";") ++ [hardBreak]

mutual

def layout (style : Style) : Tree → List Doc
  | .path rooted segments =>
    style.wrap ((if rooted then txt "::" else []) ++ joined "::" (layouts segments))
  | .qualified type trait segments =>
    style.wrap (.text "<" :: layout (.whole false) type ++
      optionDocs " as " (layoutOption (.whole false) trait) ++
      .text ">" :: (layouts segments).flatMap (.text "::" :: ·))
  | .segment name turbofish generics =>
    .text name :: genericsOf turbofish generics (layouts generics)
  | .callSegment name inputs output =>
    .text name :: cbox step (unnamedDocs (layouts inputs) ++
      outputDocs (layoutOption (.whole false) output))
  | .lifetime name => txt ("'" ++ name)
  | .equation segment value =>
    layout (.whole false) segment ++ .text " = " :: layout (.whole false) value
  | .constraint segment bounds =>
    layout (.whole false) segment ++ ibox step (boundDocs (layouts bounds))
  | .binder parameters => .text "for<" :: joined ", " (layouts parameters) ++ txt "> "
  | .bound enclosed binder relaxed path =>
    (if enclosed then txt "(" else []) ++ (layoutOption (.whole false) binder).getD [] ++
      (if relaxed then txt "?" else []) ++ layout (.whole false) path ++
      (if enclosed then txt ")" else [])
  | .captures names => txt ("use<" ++ ", ".intercalate names ++ ">")
  | .lifetimeParameter name bounds =>
    .text ("'" ++ name) :: (if bounds.isEmpty then [] else
      .text ": " :: joined " + " (lifetimesText bounds))
  | .typeParameter name bounds default =>
    typeParameterDocs name (layouts bounds) (layoutOption (.whole false) default)
  | .constParameter name type default =>
    .text ("const " ++ name ++ ": ") :: layout (.whole false) type ++
      optionDocs " = " (layoutOption (.whole false) default)
  | .lifetimePredicate name bounds =>
    .text ("'" ++ name) :: predicateDocs step (lifetimesText bounds)
  | .typePredicate binder type bounds =>
    (layoutOption (.whole false) binder).getD [] ++ layout (.whole false) type ++
      predicateDocs (if bounds.length = 1 then 0 else step) (layouts bounds)
  | .refType lifetime mutable type =>
    .text (refMark lifetime mutable) :: layout (.whole false) type
  | .pointer mutable type =>
    .text (if mutable then "*mut " else "*const ") :: layout (.whole false) type
  | .slice type => .text "[" :: layout (.whole false) type ++ txt "]"
  | .sized type length =>
    .text "[" :: layout (.whole false) type ++ .text "; " :: layout (.whole false) length ++ txt "]"
  | .never => txt "!"
  | .object bounds => .text "dyn " :: joined " + " (layouts bounds)
  | .hidden bounds => .text "impl " :: joined " + " (layouts bounds)
  | .function binder qualifiers inputs output =>
    (layoutOption (.whole false) binder).getD [] ++ .text (qualifiers ++ "fn(") ::
      cbox step (shiftLast (-step) (softBreak :: inputDocs inputs (layouts inputs))) ++
      .text ")" :: outputDocs (layoutOption (.whole false) output)
  | .variadic pattern =>
    (match layoutOption (.whole false) pattern with
      | some d => d ++ txt ": "
      | none => []) ++ txt "..."
  | .hole => style.wrap (txt "_")
  | .tuple parts => style.wrap (tupleDocs true (layouts parts))
  | .paren inner => style.wrap (.text "(" :: layout (.whole false) inner ++ txt ")")
  | .literal s => style.wrap (txt s)
  | .reference mutable inner =>
    style.wrap (.text (if mutable then "&mut " else "&") :: layout (.whole false) inner)
  | .range closed lower upper =>
    style.wrap ((layoutOption (.whole false) lower).getD [] ++
      .text (if closed then "..=" else "..") :: (layoutOption (.whole false) upper).getD [])
  | .expansion path d body => style.wrap (layout (.whole false) path ++ expansionDocs none d body)
  | .name byRef mutable name sub =>
    .text ((if byRef then "ref " else "") ++ (if mutable then "mut " else "") ++ name) ::
      optionDocs " @ " (layoutOption (.whole false) sub)
  | .construct path parts =>
    layout (.whole false) path ++ .text "(" :: listed (layouts parts) ++ txt ")"
  | .fields path fields rest =>
    fieldsPatternDocs (layout (.whole false) path) (layouts fields) (layoutOption (.whole false) rest)
  | .fieldPattern member pattern => .text (member ++ ": ") :: layout (.whole false) pattern
  | .parts parts => .text "[" :: commas (layouts parts) ++ txt "]"
  | .group parts trailing => tupleDocs trailing (layouts parts)
  | .either cases =>
    boxed 0 (!cases.all isPlainPattern) (broken "| " (layouts cases))
  | .typed pattern type => layout (.whole false) pattern ++ .text ": " :: layout (.whole false) type
  | .unary op e => style.wrap (.text (String.singleton op) :: layout (.whole false) e)
  | .address mutable e =>
    style.wrap (.text (if mutable then "&raw mut " else "&raw const ") :: layout (.whole false) e)
  | .binary op l r =>
    style.wrap (ibox step (ibox (-step) (layout (.whole false) l) ++
      blankBreak :: .text op :: .text " " :: layout (.whole false) r))
  | .assign l r =>
    style.wrap (ibox 0 (layout (.whole false) l ++
      .text " = " :: noBreak :: layout (.whole false) r))
  | .call f args =>
    layout style.ofCallee f ++ .text "(" :: argumentDocs args (layouts args) ++ txt ")"
  | .method receiver name generics args =>
    methodDocs style (style.first && isShortName receiver) (layout (.chain style.first) receiver)
      (.text ("." ++ name) :: genericsOf true generics (layouts generics))
      (argumentDocs args (layouts args))
  | .field e name =>
    style.link (layout (.chain style.first) e ++
      (if style.first && isShortName e then [] else [softBreak]) ++ txt ("." ++ name))
  | .index e i => layout style.ofAttempt e ++ .text "[" :: layout (.whole false) i ++ txt "]"
  | .attempt e => layout style.ofAttempt e ++ txt "?"
  | .cast e type =>
    style.wrap (ibox step (ibox (-step) (layout (.whole false) e) ++
      blankBreak :: .text "as " :: layout (.whole false) type))
  | .array parts => style.wrap (arrayDocs parts (layouts parts))
  | .repeated e length =>
    style.wrap (.text "[" :: layout (.whole false) e ++ .text "; " ::
      layout (.whole false) length ++ txt "]")
  | .block label body =>
    if style = .body then .text (labelText label) :: openBlock body (layouts body)
    else if style = .tail then smallBlock body (layouts body)
    else style.wrap (.text (labelText label) :: cbox step (smallBlock body (layouts body)))
  | .scope keywords body =>
    style.wrap (.text keywords :: cbox step (smallBlock body (layouts body)))
  | .cond test yes no =>
    condDocs style (headDocs test (layout (.whole false) test)) yes (layouts yes)
      (layoutOption .tail no)
  | .binds pattern e =>
    style.wrap (.text "let " :: layout (.whole false) pattern ++ .text " = " :: noBreak ::
      guarded e (layout (.whole false) e))
  | .cases e arms =>
    style.wrap (ibox 0 (.text "match " :: headDocs e (layout (.whole false) e) ++ .text "\x7b" ::
      blockDocs (layouts arms).flatten))
  | .arm pattern guard body =>
    ibox 0 (layout (.whole false) pattern ++
      optionDocs " if " (layoutOption (.whole false) guard) ++ .text " => " ::
      armDocs body (layout .body body)) ++ [hardBreak]
  | .whileLoop label test body =>
    style.wrap (ibox 0 (.text (labelText label ++ "while ") ::
      headDocs test (layout (.whole false) test) ++ openBlock body (layouts body)))
  | .endless label body =>
    style.wrap (ibox 0 (.text (labelText label ++ "loop ") :: openBlock body (layouts body)))
  | .forLoop label pattern e body =>
    style.wrap (ibox 0 (.text (labelText label ++ "for ") :: layout (.whole false) pattern ++
      .text " in " :: noBreak :: headDocs e (layout (.whole false) e) ++
      openBlock body (layouts body)))
  | .closure binder qualifiers args output body =>
    style.wrap (closureDocs ((layoutOption (.whole false) binder).getD [] ++ txt qualifiers)
      (layouts args) (layoutOption (.whole false) output) body (layout (.whole false) body))
  | .jump keyword label e =>
    style.wrap (.text (keyword ++ label.elim "" (" '" ++ ·)) ::
      optionDocs " " (layoutOption (.whole false) e))
  | .record path fields rest =>
    style.wrap (recordDocs (layout (.whole false) path) (layouts fields)
      (layoutOption (.whole false) rest))
  | .fieldValue member value =>
    .text member :: (match layoutOption (.whole false) value with
      | some d => .text ": " :: ibox 0 d
      | none => [])
  | .attr inner path value =>
    attributeDocs inner path value (layout (.whole false) path) (layoutOption (.whole false) value)
  | .listing d body => attrTokens false [.group d body]
  | .attributed attrs inner =>
    style.wrap ((layouts attrs).flatten ++ layout style.afterAttrs inner)
  | .empty => []
  | .binding pattern value otherwise =>
    bindingDocs (layout (.whole false) pattern) (layoutOption (.whole false) value)
      (layoutOption .tail otherwise)
  | .statement e _ => layout (.whole true) e
  | .expanded path d body _ => layout (.whole false) path ++ expansionDocs none d body
  | .definition path name d body => definitionDocs path (layout (.whole false) path) name d body
  | .imports head tree => .text head :: layout (.whole false) tree ++ [.text ";", hardBreak]
  | .importPath name tree => .text (name ++ "::") :: layout (.whole false) tree
  | .importName text => txt text
  | .importGroup trees => importDocs trees (layouts trees)
  | .line text => [.text text, hardBreak]
  | .value head type value =>
    ended 0 (.text (head ++ ": ") :: layout (.whole false) type ++
      (match layoutOption (.whole false) value with
        | some d => .text " = " :: noBreak :: d
        | none => []) ++ txt ";")
  | .typeAlias head generics type predicates =>
    ended step (.text head :: parameterDocs generics (layouts generics) ++
      whereInline (layouts predicates) ++ .text "= " :: noBreak ::
      ibox (-step) (layout (.whole false) type) ++ txt ";")
  | .associated head generics bounds type predicates =>
    ended step (.text head :: parameterDocs generics (layouts generics) ++
      boundDocs (layouts bounds) ++
      (match layoutOption (.whole false) type with
        | some d => .text " = " :: noBreak :: ibox (-step) d
        | none => []) ++ whereInlineEnd (layouts predicates))
  | .functionItem head generics inputs output predicates hasBody body =>
    let signature := signatureDocs (.text head :: parameterDocs generics (layouts generics))
      (inputDocs inputs (layouts inputs)) (layoutOption (.whole false) output)
    if hasBody then
      braced (signature ++ whereDocs (layouts predicates)) (statementsDocs body (layouts body))
    else ended step (signature ++ whereEnd (layouts predicates))
  | .structItem head generics predicates fields =>
    braced (.text head :: parameterDocs generics (layouts generics) ++
      whereDocs (layouts predicates)) (commaLines (layouts fields))
  | .tupleItem head generics fields predicates =>
    ended step (.text head :: parameterDocs generics (layouts generics) ++
      (layoutOption (.whole false) fields).getD [] ++ whereEnd (layouts predicates))
  | .enumItem head generics predicates variants =>
    braced (.text head :: parameterDocs generics (layouts generics) ++
      whereDocs (layouts predicates)) (commaLines (layouts variants))
  | .variant name fields value =>
    .text name :: (match fields with
      | some (.unnamed _) => cbox step ((layoutOption (.whole false) fields).getD [])
      | _ => (layoutOption (.whole false) fields).getD []) ++
      optionDocs " = " (layoutOption (.whole false) value)
  | .named fields => namedDocs (layouts fields)
  | .unnamed fields => unnamedDocs (layouts fields)
  | .fieldItem head type => .text head :: layout (.whole false) type
  | .traitItem head generics bounds predicates items =>
    braced (.text head :: parameterDocs generics (layouts generics) ++
      (if bounds.isEmpty then [] else .text ": " :: joined " + " (layouts bounds)) ++
      whereDocs (layouts predicates)) (layouts items).flatten
  | .traitAlias head generics bounds predicates =>
    ended step (.text head :: parameterDocs generics (layouts generics) ++ .text " = " :: noBreak ::
      broken "+ " (layouts bounds) ++ whereEnd (layouts predicates))
  | .implementation head generics trait type predicates items =>
    braced (implementationHead (.text head :: parameterDocs generics (layouts generics))
      (layoutOption (.whole false) trait) (layout (.whole false) type) ++
      whereDocs (layouts predicates)) (layouts items).flatten
  | .moduleItem head items => braced (txt head) (layouts items).flatten
  | .unset => [.gap]

def layouts : List Tree → List (List Doc)
  | [] => []
  | t :: ts => layout (.whole false) t :: layouts ts

def layoutOption (style : Style) : Option Tree → Option (List Doc)
  | none => none
  | some t => some (layout style t)

end

def statements (ts : List Tree) : List Doc := statementsDocs ts (layouts ts)

end Bindery.Source
